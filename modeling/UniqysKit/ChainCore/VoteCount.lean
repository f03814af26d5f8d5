import Mathlib.Algebra.Order.BigOperators.Group.Finset
import Mathlib.Algebra.Order.BigOperators.Group.List
import UniqysKit.ChainCore.ConsensusEngine

/-!
# Counting votes

`VoteSet.Counted` ties the numbers of a `VoteSet` to the messages it holds.  From it follows what a
majority stands for: a quorum of validators whose votes were recorded, each counted once.
-/

namespace UniqysKit
namespace ChainCore

open Library

/-! ## Weights -/

section Weights

variable {vs : ValidatorSet}

theorem mem_of_weight_pos {address : Address} (h : 0 < vs.weight address) :
    address ∈ vs.validators.map Validator.address := by
  have hpower := (ValidatorSet.powerOf_eq_ok_iff.1 (ValidatorSet.weight_pos_iff.1 h)).1
  rcases Option.map_eq_some_iff.mp hpower with ⟨v, hfind, -⟩
  have hmem := List.mem_reverse.mp (List.mem_of_find?_eq_some hfind)
  have haddress : v.address = address := by simpa using List.find?_some hfind
  exact List.mem_map.mpr ⟨v, hmem, haddress⟩

end Weights

/-! ## The votes of a round -/

section Counted

variable (c : Crypto) (genesis : Hash) (height : Nat) (vs : ValidatorSet)

/-- The votes of a round of the height, each under the address of its signer, and counted. -/
structure VoteSet.Counted {type : VoteType} (set : VoteSet type) (round : Nat) : Prop where
  validatorSet : set.validatorSet = vs
  nodup : (set.messageOfValidator.map Prod.fst).Nodup
  signed : ∀ entry ∈ set.messageOfValidator, entry.2.signerAddress c genesis = .ok entry.1 ∧
    entry.2.vote.height = height ∧ entry.2.vote.round = round
  power : ∀ blockHash, set.powerOfBlock blockHash =
    Doubles.sum ((set.messageOfValidator.filter fun entry => entry.2.vote.blockHash = blockHash).map
      fun entry => vs.weight entry.1)
  majority : ∀ vote, set.twoThirdsMajority = some vote →
    vs.Passes (set.powerOfBlock vote.blockHash)

variable {c genesis height vs} {type : VoteType} {set : VoteSet type} {round : Nat}

theorem VoteSet.counted_new (type : VoteType) (round : Nat) :
    (VoteSet.new vs : VoteSet type).Counted c genesis height vs round := by
  refine ⟨rfl, by simp [new], by simp [new], ?_, by simp [new]⟩
  intro blockHash
  rfl

theorem VoteSet.has_iff {address : Address} :
    set.has address = true ↔ ∃ msg, (address, msg) ∈ set.messageOfValidator := by
  simp [has]

/-- The vote set with one more message, not counted yet. -/
def VoteSet.record (address : Address) (msg : VoteMessage type) (set : VoteSet type) : VoteSet type :=
  { set with messageOfValidator := set.messageOfValidator ++ [(address, msg)] }

theorem VoteSet.add_eq {address : Address} (msg : VoteMessage type)
    (hhas : ¬ set.has address = true) :
    VoteSet.add address msg set = match set.validatorSet.powerOf address with
      | .ok votePower => .ok () ((set.record address msg).count votePower msg.vote)
      | .error e => .error e (set.record address msg) := by
  rw [add, Fallible.get_bind, if_neg hhas]
  -- the power is looked up after the message was recorded
  change (match set.validatorSet.powerOf address with
      | .ok votePower => modify (count votePower msg.vote)
      | .error e => throw e : Action (VoteSet type) Unit) (set.record address msg) = _
  cases set.validatorSet.powerOf address with
  | ok votePower => rfl
  | error e => rfl

section Add

variable {address : Address} {msg : VoteMessage type}

/-- A voter that was not recorded yet is recorded once. -/
theorem VoteSet.nodup_record (hnodup : (set.messageOfValidator.map Prod.fst).Nodup)
    (hhas : ¬ set.has address = true) :
    ((set.record address msg).messageOfValidator.map Prod.fst).Nodup := by
  rw [VoteSet.record, List.map_append, List.map_singleton, List.nodup_append']
  refine ⟨hnodup, List.nodup_singleton _, ?_⟩
  intro a ha hnew
  obtain rfl := List.mem_singleton.mp hnew
  rcases List.mem_map.mp ha with ⟨entry, hentry, rfl⟩
  exact hhas (VoteSet.has_iff.mpr ⟨entry.2, hentry⟩)

/-- The power of the messages for a block, with one more message. -/
theorem VoteSet.sum_record (blockHash : Hash) :
    Doubles.sum (((set.record address msg).messageOfValidator.filter fun entry =>
        entry.2.vote.blockHash = blockHash).map fun entry => vs.weight entry.1) =
      if msg.vote.blockHash = blockHash then
        Doubles.add (Doubles.sum ((set.messageOfValidator.filter fun entry =>
          entry.2.vote.blockHash = blockHash).map fun entry => vs.weight entry.1)) (vs.weight address)
      else Doubles.sum ((set.messageOfValidator.filter fun entry =>
        entry.2.vote.blockHash = blockHash).map fun entry => vs.weight entry.1) := by
  rw [VoteSet.record, List.filter_append, List.map_append]
  by_cases heq : msg.vote.blockHash = blockHash
  · simp [heq, Doubles.sum_concat]
  · simp [heq]

/-- The power behind a block with one more vote. -/
theorem VoteSet.powerOfBlock_count (votePower : Nat) (blockHash : Hash) :
    ((set.record address msg).count votePower msg.vote).powerOfBlock blockHash =
      if msg.vote.blockHash = blockHash then Doubles.add (set.powerOfBlock blockHash) votePower
      else set.powerOfBlock blockHash := by
  by_cases heq : msg.vote.blockHash = blockHash
  · subst heq
    simp [VoteSet.count, VoteSet.record]
  · simp [VoteSet.count, VoteSet.record, heq, Ne.symm heq]

/-- The messages of a set that `add` has recorded one more in. -/
theorem VoteSet.Counted.messages (h : set.Counted c genesis height vs round)
    (hhas : ¬ set.has address = true) (hsigner : msg.signerAddress c genesis = .ok address)
    (hheight : msg.vote.height = height) (hround : msg.vote.round = round) :
    ((set.record address msg).messageOfValidator.map Prod.fst).Nodup ∧
      ∀ entry ∈ (set.record address msg).messageOfValidator,
        entry.2.signerAddress c genesis = .ok entry.1 ∧ entry.2.vote.height = height ∧
          entry.2.vote.round = round := by
  refine ⟨VoteSet.nodup_record h.nodup hhas, ?_⟩
  intro entry hentry
  rcases List.mem_append.mp hentry with hold | hnew
  · exact h.signed entry hold
  · rw [List.mem_singleton.mp hnew]
    exact ⟨hsigner, hheight, hround⟩

/-- A recorded message of an address without power. -/
theorem VoteSet.Counted.record (h : set.Counted c genesis height vs round)
    (hhas : ¬ set.has address = true) (hsigner : msg.signerAddress c genesis = .ok address)
    (hheight : msg.vote.height = height) (hround : msg.vote.round = round)
    (hweight : vs.weight address = 0) :
    (set.record address msg).Counted c genesis height vs round := by
  rcases h.messages hhas hsigner hheight hround with ⟨hnodup, hsigned⟩
  refine ⟨h.validatorSet, hnodup, hsigned, ?_, h.majority⟩
  intro blockHash
  rw [VoteSet.sum_record, hweight, Doubles.add_zero_sum, ite_self, ← h.power]
  rfl

/-- A message that was recorded and counted. -/
theorem VoteSet.Counted.count (h : set.Counted c genesis height vs round)
    (hhas : ¬ set.has address = true) (hsigner : msg.signerAddress c genesis = .ok address)
    (hheight : msg.vote.height = height) (hround : msg.vote.round = round) :
    ((set.record address msg).count (vs.weight address) msg.vote).Counted
      c genesis height vs round := by
  rcases h.messages hhas hsigner hheight hround with ⟨hnodup, hsigned⟩
  refine ⟨h.validatorSet, hnodup, hsigned, ?_, ?_⟩
  · intro blockHash
    rw [VoteSet.powerOfBlock_count, h.power]
    exact (VoteSet.sum_record blockHash).symm
  · intro vote hvote
    rw [VoteSet.powerOfBlock_count]
    simp only [VoteSet.count] at hvote
    split at hvote
    · rename_i hmajority
      cases hvote
      have hsame : (set.record address msg).validatorSet = vs := h.validatorSet
      rw [hsame] at hmajority
      rw [if_pos rfl]
      exact hmajority.2
    · -- the sum of the block has not gone down
      have hold := h.majority vote hvote
      split
      · refine hold.mono ?_
        rw [h.power]
        exact Doubles.sum_le_add _ _
      · exact hold

end Add

/-- What a majority stands for: voters with power whose votes were recorded and who, added up one
after another, pass for two thirds. -/
theorem VoteSet.Counted.quorum (h : set.Counted c genesis height vs round) {vote : Vote}
    (hmajority : set.twoThirdsMajority = some vote) :
    ∃ voters : List Address, voters.Nodup ∧ vs.Passes (Doubles.sum (voters.map vs.weight)) ∧
      ∀ a ∈ voters, 0 < vs.weight a ∧ ∃ msg, (a, msg) ∈ set.messageOfValidator ∧
        msg.vote = ⟨height, round, vote.blockHash⟩ := by
  let voters := (set.messageOfValidator.filter fun entry =>
    entry.2.vote.blockHash = vote.blockHash).map Prod.fst
  have hnodup : voters.Nodup := (h.nodup.sublist ((List.filter_sublist).map Prod.fst))
  -- voters without power add nothing to the sum and are left out
  refine ⟨voters.filter fun a => 0 < vs.weight a, hnodup.filter _, ?_, ?_⟩
  · have hsum : Doubles.sum ((voters.filter fun a => 0 < vs.weight a).map vs.weight) =
        Doubles.sum (voters.map vs.weight) := by
      have hfilter : (voters.map vs.weight).filter (0 < ·) =
          (voters.filter fun a => 0 < vs.weight a).map vs.weight := List.filter_map
      rw [← hfilter, Doubles.sum_filter_pos]
    have hpower : set.powerOfBlock vote.blockHash = Doubles.sum (voters.map vs.weight) := by
      rw [h.power, List.map_map]
      rfl
    rw [hsum, ← hpower]
    exact h.majority vote hmajority
  · intro a ha
    rcases List.mem_filter.mp ha with ⟨hvoter, hweight⟩
    rcases List.mem_map.mp hvoter with ⟨⟨a', msg⟩, hentry, rfl⟩
    rcases List.mem_filter.mp hentry with ⟨hmem, hhash⟩
    rcases h.signed _ hmem with ⟨-, hheight, hround⟩
    refine ⟨of_decide_eq_true hweight, msg, hmem, ?_⟩
    have hhash' : msg.vote.blockHash = vote.blockHash := by simpa using hhash
    rw [← hheight, ← hround, ← hhash']

end Counted

end ChainCore
end UniqysKit
