import Mathlib.Algebra.Order.BigOperators.Group.Finset
import Mathlib.Tactic.Linarith

/-!
# Weighted votes and locking

Voters with weights, of which a minority of less than a third may behave in any way.  Two quorums
have a correct voter in common.  `Locking` lists what a correct voter of a round based protocol with
a lock observes; `Locking.decided_eq` is what follows for the decisions of all rounds.
-/

namespace UniqysKit
namespace Library

variable {α β : Type} [DecidableEq α]

/-- Voters, what their votes count, and who of them is not bound by the protocol. -/
structure Electorate (α : Type) where
  weight : α → Nat
  total : Nat
  Faulty : α → Prop
  weight_le : ∀ members : Finset α, ∑ a ∈ members, weight a ≤ total
  faulty_le : ∀ members : Finset α, (∀ a ∈ members, Faulty a) →
    (∑ a ∈ members, weight a) * 3 ≤ total

namespace Electorate

variable (electorate : Electorate α)

/-- More than two thirds of the total weight. -/
def IsQuorum (members : Finset α) : Prop :=
  electorate.total * 2 < (∑ a ∈ members, electorate.weight a) * 3

/-- A quorum of which each correct member has voted so. -/
def HasQuorum (voted : α → Prop) : Prop :=
  ∃ members, electorate.IsQuorum members ∧ ∀ a ∈ members, electorate.Faulty a ∨ voted a

variable {electorate}

/-- Two quorums share more than a third of the weight. -/
theorem IsQuorum.inter {members members' : Finset α} (h : electorate.IsQuorum members)
    (h' : electorate.IsQuorum members') :
    electorate.total < (∑ a ∈ members ∩ members', electorate.weight a) * 3 := by
  have hunion := electorate.weight_le (members ∪ members')
  have hsum : ∑ a ∈ members ∪ members', electorate.weight a +
      ∑ a ∈ members ∩ members', electorate.weight a =
        ∑ a ∈ members, electorate.weight a + ∑ a ∈ members', electorate.weight a :=
    Finset.sum_union_inter
  unfold IsQuorum at h h'
  omega

theorem IsQuorum.exists_correct {members members' : Finset α} (h : electorate.IsQuorum members)
    (h' : electorate.IsQuorum members') :
    ∃ a, a ∈ members ∧ a ∈ members' ∧ ¬ electorate.Faulty a := by
  by_contra hnone
  push Not at hnone
  have hfaulty : ∀ a ∈ members ∩ members', electorate.Faulty a := by
    intro a ha
    rcases Finset.mem_inter.mp ha with ⟨hleft, hright⟩
    exact hnone a hleft hright
  have hle := electorate.faulty_le _ hfaulty
  have hlt := h.inter h'
  omega

/-- What two quorums have voted for, some correct voter has voted for both. -/
theorem HasQuorum.exists_both {voted voted' : α → Prop} (h : electorate.HasQuorum voted)
    (h' : electorate.HasQuorum voted') : ∃ a, ¬ electorate.Faulty a ∧ voted a ∧ voted' a := by
  rcases h with ⟨members, hquorum, hvoted⟩
  rcases h' with ⟨members', hquorum', hvoted'⟩
  rcases hquorum.exists_correct hquorum' with ⟨a, ha, ha', hcorrect⟩
  exact ⟨a, hcorrect, (hvoted a ha).resolve_left hcorrect, (hvoted' a ha').resolve_left hcorrect⟩

end Electorate

/-- The rules that correct voters keep: one prevote in a round; a precommit only for what a quorum
has prevoted; and, after a precommit, a prevote in a later round only for what a quorum has prevoted
since. -/
structure Locking (electorate : Electorate α) (prevote precommit : Nat → β → α → Prop) : Prop where
  once : ∀ {a round b b'}, ¬ electorate.Faulty a → prevote round b a → prevote round b' a → b = b'
  justified : ∀ {a round b}, ¬ electorate.Faulty a → precommit round b a →
    electorate.HasQuorum (prevote round b)
  locked : ∀ {a round round' b b'}, ¬ electorate.Faulty a → precommit round b a →
    prevote round' b' a → round < round' →
      ∃ since, round ≤ since ∧ since < round' ∧ electorate.HasQuorum (prevote since b')

namespace Locking

variable {electorate : Electorate α} {prevote precommit : Nat → β → α → Prop}

/-- Once a quorum has precommitted, no later round can prevote anything else. -/
theorem prevote_eq (h : Locking electorate prevote precommit) {round : Nat} {b : β}
    (hdecided : electorate.HasQuorum (precommit round b)) {round' : Nat} (hle : round ≤ round')
    {b' : β} (hquorum : electorate.HasQuorum (prevote round' b')) : b' = b := by
  induction round' using Nat.strong_induction_on generalizing b' with
  | _ round' ih =>
      rcases hdecided.exists_both hquorum with ⟨a, hcorrect, hprecommit, hprevote⟩
      rcases Nat.eq_or_lt_of_le hle with rfl | hlt
      · -- in the round itself the decided value has a quorum of prevotes too
        obtain ⟨a', hcorrect', hfirst, hsecond⟩ :=
          (h.justified hcorrect hprecommit).exists_both hquorum
        exact h.once hcorrect' hsecond hfirst
      · rcases h.locked hcorrect hprecommit hprevote hlt with ⟨since, hsince, hbefore, hearlier⟩
        exact ih since hbefore hsince hearlier

/-- Decisions of any two rounds agree. -/
theorem decided_eq (h : Locking electorate prevote precommit) {round round' : Nat} {b b' : β}
    (hdecided : electorate.HasQuorum (precommit round b))
    (hdecided' : electorate.HasQuorum (precommit round' b')) : b = b' := by
  -- a decided value has a quorum of prevotes in its round
  have hprevoted : ∀ {round b}, electorate.HasQuorum (precommit round b) →
      electorate.HasQuorum (prevote round b) := by
    intro round b hquorum
    rcases hquorum.exists_both hquorum with ⟨a, hcorrect, hprecommit, -⟩
    exact h.justified hcorrect hprecommit
  rcases Nat.le_total round round' with hle | hle
  · exact (h.prevote_eq hdecided hle (hprevoted hdecided')).symm
  · exact h.prevote_eq hdecided' hle (hprevoted hdecided)

end Locking

end Library
end UniqysKit
