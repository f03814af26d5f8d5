import Mathlib.Algebra.BigOperators.Group.List.Basic
import Mathlib.Data.List.Nodup
import Mathlib.Logic.Function.Basic
import UniqysKit.EventProvider.Solidity

/-!
# The validators of the contract

The table of `ValidatorSet.sol`: the power of each account, the list of the validators and the total
power.  `table_consistent` says that they fit together after any sequence of updates.  The loop that
takes an account out of the list counts with eight bits, so it does not end on a longer list and the
update runs out of gas.
-/

namespace UniqysKit
namespace EventProvider

structure ValidatorSet where
  powers : Address → Nat
  validators : List Address
  totalPower : Nat

namespace ValidatorSet

/-- The contract as it is deployed. -/
def new : ValidatorSet := ⟨fun _ => 0, [], 0⟩

/-- The loop that copies the validators other than the account. -/
def copyOthers (validators : List Address) (account : Address) :
    Nat → UInt8 → UInt8 → List Address → Result (List Address)
  | 0, _, _, _ => .error outOfGas
  | gas + 1, i, j, newValidators =>
      match validators[i.toNat]? with
      | none => .ok newValidators
      | some validator =>
          if validator ≠ account then
            if j.toNat < newValidators.length then
              copyOthers validators account gas (i + 1) (j + 1)
                (newValidators.set j.toNat validator)
            else .error invalidOpcode
          else copyOthers validators account gas (i + 1) j newValidators

/-- The first part of `_updatePower`: the list with the account, and the new total. -/
def enter [SafeMath] (account : Address) (power : Nat) (state : ValidatorSet) :
    Result (List Address × Nat) :=
  let currentPower := state.powers account
  if currentPower = 0 then do
    return (state.validators ++ [account], ← SafeMath.add state.totalPower power)
  else if currentPower < power then do
    return (state.validators, ← SafeMath.add state.totalPower (← SafeMath.sub power currentPower))
  else do
    return (state.validators, ← SafeMath.sub state.totalPower (← SafeMath.sub currentPower power))

/-- The second part: without power the account is left out. -/
def leave (gas : Nat) (account : Address) (power : Nat) (validators : List Address) :
    Result (List Address) :=
  if power = 0 then
    -- of an empty list the length of the new one would wrap around
    if validators.length = 0 then .error outOfGas
    else
      copyOthers validators account gas 0 0
        (List.replicate (validators.length - 1) Address.zero)
  else .ok validators

/-- `_updatePower`, where `gas` bounds the turns of the loop. -/
def updatePower [SafeMath] (gas : Nat) (account : Address) (power : Nat) (state : ValidatorSet) :
    Result ValidatorSet := do
  let (validators, totalPower) ← enter account power state
  let validators ← leave gas account power validators
  return ⟨Function.update state.powers account power, validators, totalPower⟩

structure PowerUpdate where
  gas : Nat
  account : Address
  power : Nat

/-- Successful updates, one after another. -/
def run [SafeMath] (updates : List PowerUpdate) : Result ValidatorSet :=
  updates.foldlM (fun state update => state.updatePower update.gas update.account update.power) new

/-- The three parts of the table fit together. -/
structure Consistent (state : ValidatorSet) : Prop where
  nodup : state.validators.Nodup
  mem_iff : ∀ account, account ∈ state.validators ↔ state.powers account ≠ 0
  totalPower : state.totalPower = (state.validators.map state.powers).sum

/-! ## The loop -/

section Loop

variable {validators : List Address} {account : Address} {gas : Nat} {i j : UInt8}
  {newValidators result : List Address}

/-- On a list that a `uint8` cannot count the loop does not end. -/
theorem length_lt_of_copyOthers
    (h : copyOthers validators account gas i j newValidators = .ok result) :
    validators.length < 256 := by
  induction gas generalizing i j newValidators with
  | zero => cases h
  | succ gas ih =>
      rw [copyOthers] at h
      split at h
      · rename_i hnone
        have hle := List.getElem?_eq_none_iff.mp hnone
        have hlt := i.toNat_lt
        omega
      · split at h
        · split at h
          · exact ih h
          · cases h
        · exact ih h

/-- A counter that does not come to the last number goes on by one. -/
theorem toNat_add_one (h : i.toNat + 1 < 256) : (i + 1).toNat = i.toNat + 1 := by
  rw [UInt8.toNat_add]
  exact Nat.mod_eq_of_lt h

/-- The entries that the loop has gone through, one turn later. -/
theorem filter_take_succ (hlt : validators.length < 256) (hbound : i.toNat < validators.length) :
    (validators.take (i + 1).toNat).filter (· ≠ account) =
      (validators.take i.toNat).filter (· ≠ account) ++
        [validators[i.toNat]].filter (· ≠ account) := by
  rw [toNat_add_one (by omega), List.take_succ_eq_append_getElem hbound, List.filter_append]

/-- No more entries are copied than the loop has gone through. -/
theorem copied_le (hj : j.toNat = ((validators.take i.toNat).filter (· ≠ account)).length) :
    j.toNat ≤ i.toNat := by
  rw [hj]
  exact (List.length_filter_le _ _).trans (List.length_take_le _ _)

/-- What is copied so far are the first entries, without the account. -/
theorem copyOthers_eq (hi : i.toNat ≤ validators.length)
    (hj : j.toNat = ((validators.take i.toNat).filter (· ≠ account)).length)
    (hcopied : newValidators.take j.toNat = (validators.take i.toNat).filter (· ≠ account))
    (hlength : newValidators.length = (validators.filter (· ≠ account)).length)
    (h : copyOthers validators account gas i j newValidators = .ok result) :
    result = validators.filter (· ≠ account) := by
  have hlt := length_lt_of_copyOthers h
  induction gas generalizing i j newValidators with
  | zero => cases h
  | succ gas ih =>
      rw [copyOthers] at h
      split at h
      · -- the end of the list
        rename_i hnone
        cases h
        have hle := List.getElem?_eq_none_iff.mp hnone
        rw [List.take_of_length_le hle] at hj hcopied
        rw [← hcopied, hj, ← hlength, List.take_length]
      · rename_i validator hsome
        rcases List.getElem?_eq_some_iff.mp hsome with ⟨hbound, rfl⟩
        have hnext := @toNat_add_one i (by omega)
        have hfilter := @filter_take_succ _ account _ hlt hbound
        split at h
        · -- another account, which is copied
          rename_i hother
          rw [List.filter_cons_of_pos (by simpa using hother), List.filter_nil] at hfilter
          split at h
          · rename_i hroom
            -- there is room for one more, and `j` does not overflow
            have hjle := copied_le hj
            have hnext' := @toNat_add_one j (by omega)
            refine ih (by omega) ?_ ?_ ?_ h
            · rw [hfilter, List.length_append, ← hj, hnext']
              rfl
            · have hroom' : j.toNat < (newValidators.set j.toNat validators[i.toNat]).length := by
                rwa [List.length_set]
              rw [hfilter, ← hcopied, hnext', List.take_succ_eq_append_getElem hroom',
                List.getElem_set_self, List.take_set_of_le (le_refl _)]
            · rw [List.length_set, hlength]
          · cases h
        · -- the account itself, which is left out
          rename_i hsame
          rw [List.filter_cons_of_neg (by simpa using hsame), List.filter_nil,
            List.append_nil] at hfilter
          refine ih (by omega) ?_ ?_ hlength h
          · rw [hfilter]
            exact hj
          · rw [hfilter]
            exact hcopied

end Loop

/-! ## Updates -/

section Updates

variable {state state' : ValidatorSet} {account : Address} {power gas : Nat}

/-- The sum of the powers when the power of one validator changes. -/
theorem sum_update {validators : List Address} {powers : Address → Nat} (hnodup : validators.Nodup)
    (hmem : account ∈ validators) :
    (validators.map (Function.update powers account power)).sum + powers account =
      (validators.map powers).sum + power := by
  have hperm := List.perm_cons_erase hmem
  have hrest : (validators.erase account).map (Function.update powers account power) =
      (validators.erase account).map powers := by
    refine List.map_congr_left ?_
    intro other hother
    exact Function.update_of_ne (fun heq => hnodup.not_mem_erase (heq ▸ hother)) _ _
  rw [(hperm.map _).sum_eq, (hperm.map powers).sum_eq]
  simp only [List.map_cons, List.sum_cons, Function.update_self, hrest]
  omega

theorem filter_ne_eq_erase {validators : List Address} (hnodup : validators.Nodup) :
    validators.filter (· ≠ account) = validators.erase account := by
  rw [hnodup.erase_eq_filter]
  refine List.filter_congr ?_
  intro other _
  by_cases hother : other = account
  · simp [hother]
  · simp [hother]

/-- The list and the total after the first part of an update. -/
structure Entered (state : ValidatorSet) (account : Address) (power : Nat)
    (validators : List Address) (totalPower : Nat) : Prop where
  nodup : validators.Nodup
  mem_iff : ∀ other, other ∈ validators ↔ state.powers other ≠ 0 ∨ other = account
  totalPower : totalPower = (validators.map (Function.update state.powers account power)).sum

/-- An account that has no power yet is put at the end. -/
theorem Consistent.push (h : state.Consistent) (hnew : state.powers account = 0) :
    Entered state account power (state.validators ++ [account]) (state.totalPower + power) := by
  have hnotmem : account ∉ state.validators := by
    rw [h.mem_iff, hnew]
    exact not_not.mpr rfl
  have hnodup : (state.validators ++ [account]).Nodup :=
    h.nodup.append (List.nodup_singleton account) (by simpa using hnotmem)
  refine ⟨hnodup, ?_, ?_⟩
  · intro other
    rw [List.mem_append, h.mem_iff, List.mem_singleton]
  · have hmem : account ∈ state.validators ++ [account] :=
      List.mem_append_right _ (List.mem_singleton_self account)
    have hsum := @sum_update account power _ state.powers hnodup hmem
    have hbefore : ((state.validators ++ [account]).map state.powers).sum = state.totalPower := by
      rw [List.map_append, List.sum_append, ← h.totalPower]
      simp [hnew]
    omega

/-- The power of a validator changes. -/
theorem Consistent.change {totalPower : Nat} (h : state.Consistent)
    (hold : state.powers account ≠ 0)
    (htotal : totalPower + state.powers account = state.totalPower + power) :
    Entered state account power state.validators totalPower := by
  have hmem : account ∈ state.validators := (h.mem_iff account).mpr hold
  refine ⟨h.nodup, ?_, ?_⟩
  · intro other
    rw [h.mem_iff]
    constructor
    · exact Or.inl
    · rintro (hother | rfl)
      · exact hother
      · exact hold
  · have hsum := @sum_update account power _ state.powers h.nodup hmem
    rw [← h.totalPower] at hsum
    omega

/-- The first part of an update that succeeds: the account is in the list, the total changes by as much
as its power, and it only grows as far as a word reaches. -/
theorem enter_eq_ok [SafeMath] {validators : List Address} {totalPower : Nat}
    (h : enter account power state = .ok (validators, totalPower)) :
    validators = (if state.powers account = 0 then state.validators ++ [account]
        else state.validators) ∧
      totalPower + state.powers account = state.totalPower + power ∧
        (totalPower < 2 ^ 256 ∨ totalPower ≤ state.totalPower) := by
  simp only [ValidatorSet.enter] at h
  split at h
  · -- a new validator adds its power to the total
    rename_i hnew
    rcases Result.bind_eq_ok.mp h with ⟨total, hadd, hpair⟩
    rcases SafeMath.add_eq_ok_iff.mp hadd with ⟨hlt, rfl⟩
    cases hpair
    exact ⟨(if_pos hnew).symm, by omega, .inl hlt⟩
  · -- a known one changes it by the difference, up or down
    rename_i hold
    rw [if_neg hold]
    split at h
    · rcases Result.bind_eq_ok.mp h with ⟨difference, hsub, hrest⟩
      rcases Result.bind_eq_ok.mp hrest with ⟨total, hadd, hpair⟩
      rcases SafeMath.sub_eq_ok_iff.mp hsub with ⟨hle, rfl⟩
      rcases SafeMath.add_eq_ok_iff.mp hadd with ⟨hlt, rfl⟩
      cases hpair
      exact ⟨rfl, by omega, .inl hlt⟩
    · rcases Result.bind_eq_ok.mp h with ⟨difference, hsub, hrest⟩
      rcases Result.bind_eq_ok.mp hrest with ⟨total, hsub', hpair⟩
      rcases SafeMath.sub_eq_ok_iff.mp hsub with ⟨hle, rfl⟩
      rcases SafeMath.sub_eq_ok_iff.mp hsub' with ⟨hle', rfl⟩
      cases hpair
      exact ⟨rfl, by omega, .inr (Nat.sub_le _ _)⟩

/-- The first part of a successful update. -/
theorem Consistent.entered [SafeMath] {validators : List Address} {totalPower : Nat} (h : state.Consistent)
    (hfirst : enter account power state = .ok (validators, totalPower)) :
    Entered state account power validators totalPower := by
  rcases enter_eq_ok hfirst with ⟨rfl, htotal, -⟩
  by_cases hpower : state.powers account = 0
  · rw [if_pos hpower]
    obtain rfl : totalPower = state.totalPower + power := by omega
    exact h.push hpower
  · rw [if_neg hpower]
    exact h.change hpower htotal

theorem Entered.powers_iff {validators : List Address} {totalPower : Nat} {other : Address}
    (h : Entered state account power validators totalPower) (hne : other ≠ account) :
    other ∈ validators ↔ Function.update state.powers account power other ≠ 0 := by
  rw [h.mem_iff, Function.update_of_ne hne]
  exact or_iff_left hne

/-- The account is left in the list if it has power now. -/
theorem Entered.kept {validators : List Address} {totalPower : Nat}
    (h : Entered state account power validators totalPower) (hpower : power ≠ 0) :
    Consistent ⟨Function.update state.powers account power, validators, totalPower⟩ := by
  refine ⟨h.nodup, ?_, h.totalPower⟩
  intro other
  by_cases hother : other = account
  · subst hother
    refine iff_of_true ((h.mem_iff other).mpr (.inr rfl)) ?_
    simpa using hpower
  · exact h.powers_iff hother

/-- Without power the account leaves the list, and the total does not count it. -/
theorem Entered.removed {validators : List Address} {totalPower : Nat}
    (h : Entered state account 0 validators totalPower) :
    Consistent ⟨Function.update state.powers account 0, validators.filter (· ≠ account),
      totalPower⟩ := by
  refine ⟨h.nodup.filter _, ?_, ?_⟩
  · intro other
    rw [List.mem_filter, decide_eq_true_eq]
    by_cases hother : other = account
    · subst hother
      refine iff_of_false (fun hmem => hmem.2 rfl) ?_
      simp
    · rw [and_iff_left hother]
      exact h.powers_iff hother
  · have hmem : account ∈ validators := (h.mem_iff account).mpr (.inr rfl)
    have hperm := List.perm_cons_erase hmem
    rw [h.totalPower, (hperm.map _).sum_eq, filter_ne_eq_erase h.nodup]
    simp

/-- One update keeps the parts together. -/
theorem Consistent.updatePower [SafeMath] (h : state.Consistent)
    (hupdate : state.updatePower gas account power = .ok state') : state'.Consistent := by
  rcases Result.bind_eq_ok.mp hupdate with ⟨⟨validators, totalPower⟩, hfirst, hrest⟩
  rcases Result.bind_eq_ok.mp hrest with ⟨validators', hleave, hstate⟩
  have hentered := h.entered hfirst
  cases hstate
  unfold leave at hleave
  split at hleave
  · rename_i hzero
    subst hzero
    split at hleave
    · cases hleave
    · have hmem : account ∈ validators := (hentered.mem_iff account).mpr (.inr rfl)
      have hlength : validators.length - 1 = (validators.filter (· ≠ account)).length := by
        rw [filter_ne_eq_erase hentered.nodup, List.length_erase_of_mem hmem]
      obtain rfl := copyOthers_eq (Nat.zero_le _) (by simp) (by simp) (by simpa using hlength) hleave
      exact hentered.removed
  · rename_i hpower
    cases hleave
    exact hentered.kept hpower

end Updates

theorem consistent_new : Consistent new :=
  ⟨List.nodup_nil, fun account => by simp [new], rfl⟩

/-- After any sequence of successful updates the parts of the table fit together. -/
theorem table_consistent [SafeMath] (updates : List PowerUpdate) (state : ValidatorSet)
    (h : run updates = .ok state) : state.Consistent := by
  unfold run at h
  have hstart := consistent_new
  -- along the updates, from any consistent table
  generalize new = start at h hstart
  induction updates generalizing start with
  | nil =>
      cases h
      exact hstart
  | cons update updates ih =>
      rw [List.foldlM_cons] at h
      rcases Result.bind_eq_ok.mp h with ⟨next, hupdate, hrest⟩
      exact ih next hrest (hstart.updatePower hupdate)

/-- The account whose twenty bytes all are `b`. -/
def sampleAccount (b : UInt8) : Address := ⟨List.replicate 20 b, by simp⟩

/-- Three accounts come, one of them leaves, and one that was never there leaves as well. -/
def sampleUpdates : List PowerUpdate :=
  [⟨9, sampleAccount 1, 9⟩, ⟨9, sampleAccount 2, 20⟩, ⟨9, sampleAccount 3, 1⟩,
    ⟨9, sampleAccount 2, 0⟩, ⟨9, sampleAccount 4, 0⟩]

theorem table_consistent_sample :
    ∃ state, run sampleUpdates = .ok state ∧ state.validators = [sampleAccount 1, sampleAccount 3] ∧
      state.Consistent := by
  obtain ⟨state, hrun⟩ : ∃ state, run sampleUpdates = .ok state := ⟨_, rfl⟩
  refine ⟨state, hrun, ?_, table_consistent _ _ hrun⟩
  have hvalidators : (run sampleUpdates).toOption.map validators =
      some [sampleAccount 1, sampleAccount 3] := by decide +kernel
  rw [hrun] at hvalidators
  exact Option.some.inj hvalidators

end ValidatorSet

end EventProvider
end UniqysKit
