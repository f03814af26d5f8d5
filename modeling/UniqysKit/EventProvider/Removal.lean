import Mathlib.Algebra.Order.BigOperators.Group.List
import Mathlib.Data.List.Induction
import UniqysKit.EventProvider.ValidatorSet

/-!
# Validators that leave

Without power an account is taken out of the list of `ValidatorSet.sol`, by a loop that counts with
eight bits.  An account that is not in the list is put there before.  So the loop ends well if the list
with the account has at most 255 entries; on a longer one it writes behind the end of the new list, or
never ends.
-/

namespace UniqysKit
namespace EventProvider
namespace ValidatorSet

/-! ## The loop ends -/

section Loop

variable {validators : List Address} {account : Address} {gas : Nat} {i j : UInt8}
  {newValidators : List Address}

/-- With gas for the rest of the list the loop ends, and there is room for what it copies. -/
theorem exists_copyOthers (hlt : validators.length < 256) (hi : i.toNat ≤ validators.length)
    (hj : j.toNat = ((validators.take i.toNat).filter (· ≠ account)).length)
    (hlength : newValidators.length = (validators.filter (· ≠ account)).length)
    (hgas : validators.length < i.toNat + gas) :
    ∃ result, copyOthers validators account gas i j newValidators = .ok result := by
  induction gas generalizing i j newValidators with
  | zero => omega
  | succ gas ih =>
      rw [copyOthers]
      rcases Nat.lt_or_ge i.toNat validators.length with hbound | hge
      · rw [List.getElem?_eq_getElem hbound]
        have hnext := @toNat_add_one i (by omega)
        have hfilter := @filter_take_succ _ account _ hlt hbound
        simp only
        split
        · rename_i hother
          rw [List.filter_cons_of_pos (by simpa using hother), List.filter_nil] at hfilter
          have hnext' := @toNat_add_one j (by have := copied_le hj; omega)
          have hcount : ((validators.take (i + 1).toNat).filter (· ≠ account)).length =
              j.toNat + 1 := by
            rw [hfilter, List.length_append, ← hj]
            rfl
          -- the new list has room for all that is copied in the end
          have hroom : j.toNat < newValidators.length := by
            rw [hlength, ← Nat.succ_le_iff, Nat.succ_eq_add_one, ← hcount]
            exact ((List.take_sublist _ _).filter _).length_le
          rw [if_pos hroom]
          refine ih (by omega) (hnext'.trans hcount.symm) ?_ (by omega)
          rw [List.length_set, hlength]
        · rename_i hsame
          rw [List.filter_cons_of_neg (by simpa using hsame), List.filter_nil,
            List.append_nil] at hfilter
          refine ih (by omega) ?_ hlength (by omega)
          rw [hfilter]
          exact hj
      · rw [List.getElem?_eq_none hge]
        exact ⟨newValidators, rfl⟩

theorem leave_zero (hmem : account ∈ validators) :
    leave gas account 0 validators = copyOthers validators account gas 0 0
      (List.replicate (validators.length - 1) Address.zero) := by
  have hne : validators.length ≠ 0 := fun hzero =>
    List.ne_nil_of_mem hmem (List.eq_nil_of_length_eq_zero hzero)
  rw [leave, if_pos rfl, if_neg hne]

/-- The new list has room for the others. -/
theorem length_newValidators (hnodup : validators.Nodup) (hmem : account ∈ validators) :
    (List.replicate (validators.length - 1) Address.zero).length =
      (validators.filter (· ≠ account)).length := by
  rw [List.length_replicate, filter_ne_eq_erase hnodup, List.length_erase_of_mem hmem]

/-- What leaving does, if it succeeds. -/
theorem leave_zero_eq_ok {result : List Address} (hnodup : validators.Nodup)
    (hmem : account ∈ validators) (h : leave gas account 0 validators = .ok result) :
    validators.length < 256 ∧ result = validators.filter (· ≠ account) := by
  rw [leave_zero hmem] at h
  exact ⟨length_lt_of_copyOthers h,
    copyOthers_eq (Nat.zero_le _) rfl rfl (length_newValidators hnodup hmem) h⟩

theorem exists_leave_zero (hnodup : validators.Nodup) (hmem : account ∈ validators)
    (hlt : validators.length < 256) : ∃ gas result, leave gas account 0 validators = .ok result := by
  obtain ⟨result, hresult⟩ := @exists_copyOthers validators account (validators.length + 1) 0 0 _ hlt
    (Nat.zero_le _) rfl (length_newValidators hnodup hmem) (by simp)
  exact ⟨_, result, (leave_zero hmem).trans hresult⟩

end Loop

/-! ## Reachable tables -/

section Reachable

variable {state state' : ValidatorSet} {account : Address} {power gas : Nat}

/-- The total is a `uint256`. -/
theorem totalPower_lt_of_enter [SafeMath] {validators : List Address} {totalPower : Nat}
    (h : state.totalPower < 2 ^ 256) (hfirst : enter account power state = .ok (validators, totalPower)) :
    totalPower < 2 ^ 256 := by
  rcases enter_eq_ok hfirst with ⟨-, -, hlt | hle⟩
  · exact hlt
  · exact Nat.lt_of_le_of_lt hle h

/-- An update that succeeds, part by part. -/
theorem updatePower_eq_ok [SafeMath] (h : state.updatePower gas account power = .ok state') :
    ∃ validators, enter account power state = .ok (validators, state'.totalPower) ∧
      leave gas account power validators = .ok state'.validators ∧
        state'.powers = Function.update state.powers account power := by
  rcases Result.bind_eq_ok.mp h with ⟨⟨validators, totalPower⟩, hfirst, hrest⟩
  rcases Result.bind_eq_ok.mp hrest with ⟨validators', hleave, hstate⟩
  cases hstate
  exact ⟨validators, hfirst, hleave, rfl⟩

/-- A table whose parts fit together and whose total fits into a word. -/
structure Sound (state : ValidatorSet) : Prop where
  consistent : state.Consistent
  totalPower_lt : state.totalPower < 2 ^ 256

theorem sound_new : Sound new := ⟨consistent_new, by decide⟩

theorem Sound.updatePower [SafeMath] (h : state.Sound)
    (hupdate : state.updatePower gas account power = .ok state') :
    state'.Sound := by
  rcases updatePower_eq_ok hupdate with ⟨validators, hfirst, -, -⟩
  exact ⟨h.consistent.updatePower hupdate, totalPower_lt_of_enter h.totalPower_lt hfirst⟩

theorem sound_of_run [SafeMath] {updates : List PowerUpdate} (h : run updates = .ok state) : state.Sound := by
  induction updates using List.reverseRecOn generalizing state with
  | nil =>
      cases h
      exact sound_new
  | append_singleton updates update ih =>
      rw [run, List.foldlM_append] at h
      rcases Result.bind_eq_ok.mp h with ⟨before, hbefore, hlast⟩
      rw [List.foldlM_cons] at hlast
      rcases Result.bind_eq_ok.mp hlast with ⟨next, hupdate, hnil⟩
      cases hnil
      exact (ih hbefore).updatePower hupdate

/-- No account has more than all accounts together. -/
theorem Consistent.powers_le (h : state.Consistent) (account : Address) :
    state.powers account ≤ state.totalPower := by
  by_cases hzero : state.powers account = 0
  · omega
  · have hmem := (h.mem_iff account).mpr hzero
    rw [h.totalPower]
    exact List.single_le_sum (fun _ _ => Nat.zero_le _) _ (List.mem_map_of_mem hmem)

/-- The first part of an update that lowers a power always succeeds: an account without power is put
into the list. -/
theorem Sound.enter_of_le [SafeMath] (h : state.Sound) (hle : power ≤ state.powers account) :
    ∃ totalPower, enter account power state = .ok
      (if state.powers account = 0 then state.validators ++ [account] else state.validators,
        totalPower) := by
  unfold enter
  simp only
  split
  · have hlt : state.totalPower + power < 2 ^ 256 := by
      have hbound := h.totalPower_lt
      omega
    refine ⟨state.totalPower + power, ?_⟩
    rw [SafeMath.add_eq_ok_iff.mpr ⟨hlt, rfl⟩]
    rfl
  · have hless : ¬state.powers account < power := Nat.not_lt_of_le hle
    have htotal := h.consistent.powers_le account
    refine ⟨state.totalPower - (state.powers account - power), ?_⟩
    rw [if_neg hless, SafeMath.sub_eq_ok_iff.mpr ⟨hle, rfl⟩, Result.ok_bind,
      SafeMath.sub_eq_ok_iff.mpr ⟨by omega, rfl⟩]
    rfl

/-- The list that the loop runs over. -/
theorem length_entered :
    (if state.powers account = 0 then state.validators ++ [account] else state.validators).length =
      state.validators.length + (if state.powers account = 0 then 1 else 0) := by
  split
  · rw [List.length_append, List.length_singleton]
  · rfl

/-- An update that does not raise the power succeeds unless the loop cannot count the list. -/
theorem Sound.lowers_iff [SafeMath] (h : state.Sound) (hle : power ≤ state.powers account) :
    (∃ gas state', state.updatePower gas account power = .ok state') ↔
      (power = 0 →
        state.validators.length + (if state.powers account = 0 then 1 else 0) < 256) := by
  -- the first part never fails here, so it is all about the loop
  rcases h.enter_of_le hle with ⟨totalPower, hfirst⟩
  have hentered := h.consistent.entered hfirst
  have hmem := (hentered.mem_iff account).mpr (.inr rfl)
  rw [← length_entered]
  constructor
  · rintro ⟨gas, state', hupdate⟩ rfl
    rcases updatePower_eq_ok hupdate with ⟨validators, hfirst', hleave, -⟩
    rw [hfirst] at hfirst'
    cases hfirst'
    exact (leave_zero_eq_ok hentered.nodup hmem hleave).1
  · intro hlt
    have hleave : ∃ gas result, leave gas account power (if state.powers account = 0 then
        state.validators ++ [account] else state.validators) = .ok result := by
      rcases Nat.eq_zero_or_pos power with rfl | hpos
      · exact exists_leave_zero hentered.nodup hmem (hlt rfl)
      · exact ⟨0, _, if_neg (Nat.ne_of_gt hpos)⟩
    rcases hleave with ⟨gas, result, hresult⟩
    refine ⟨gas, ⟨Function.update state.powers account power, result, totalPower⟩, ?_⟩
    rw [ValidatorSet.updatePower, hfirst, Result.ok_bind]
    simp only
    rw [hresult]
    rfl

/-- Without power the account leaves, and the others stay in their order. -/
theorem Sound.validators_of_updatePower [SafeMath] (h : state.Sound)
    (hupdate : state.updatePower gas account 0 = .ok state') :
    state'.validators = state.validators.filter (· ≠ account) := by
  rcases updatePower_eq_ok hupdate with ⟨validators, hfirst', hleave, -⟩
  rcases h.enter_of_le (Nat.zero_le (state.powers account)) with ⟨totalPower, hfirst⟩
  have hentered := h.consistent.entered hfirst
  rw [hfirst] at hfirst'
  cases hfirst'
  obtain ⟨-, hfilter⟩ :=
    leave_zero_eq_ok hentered.nodup ((hentered.mem_iff account).mpr (.inr rfl)) hleave
  rw [hfilter]
  split
  · simp
  · rfl

/-- Taking an account out, from a table whose parts fit together. -/
theorem Sound.removes_iff [SafeMath] (h : state.Sound) :
    (∃ gas state', state.updatePower gas account 0 = .ok state' ∧
      state'.validators = state.validators.filter (· ≠ account)) ↔
      state.validators.length + (if state.powers account = 0 then 1 else 0) < 256 := by
  have hlowers := h.lowers_iff (Nat.zero_le (state.powers account))
  constructor
  · rintro ⟨gas, state', hupdate, -⟩
    exact hlowers.mp ⟨gas, state', hupdate⟩ rfl
  · intro hlt
    rcases hlowers.mpr fun _ => hlt with ⟨gas, state', hupdate⟩
    exact ⟨gas, state', hupdate, h.validators_of_updatePower hupdate⟩

end Reachable

/-- An account leaves the list of a reachable table, and the others stay in their order, if and only if
the list with the account has fewer than 256 entries. -/
theorem removes_iff_length_lt [SafeMath] (updates : List PowerUpdate) (state : ValidatorSet)
    (h : run updates = .ok state) (account : Address) :
    (∃ gas state', state.updatePower gas account 0 = .ok state' ∧
      state'.validators = state.validators.filter (· ≠ account)) ↔
      state.validators.length + (if state.powers account = 0 then 1 else 0) < 256 :=
  (sound_of_run h).removes_iff

theorem removes_iff_length_lt_sample :
    ∃ state, run sampleUpdates = .ok state ∧
      ((∃ gas state', state.updatePower gas (sampleAccount 3) 0 = .ok state' ∧
        state'.validators = state.validators.filter (· ≠ sampleAccount 3)) ↔
        state.validators.length + (if state.powers (sampleAccount 3) = 0 then 1 else 0) < 256) := by
  obtain ⟨state, hrun⟩ : ∃ state, run sampleUpdates = .ok state := ⟨_, rfl⟩
  exact ⟨state, hrun, removes_iff_length_lt _ _ hrun _⟩

/-! ## A long list -/

/-- Each of the accounts gets one power. -/
def entries (accounts : List Address) : List PowerUpdate := accounts.map fun account => ⟨0, account, 1⟩

theorem run_entries [SafeMath] {accounts : List Address} (hnodup : accounts.Nodup)
    (hlt : accounts.length < 2 ^ 256) :
    run (entries accounts) =
      .ok ⟨fun account => if account ∈ accounts then 1 else 0, accounts, accounts.length⟩ := by
  induction accounts using List.reverseRecOn with
  | nil => simp [run, entries, new]
  | append_singleton accounts account ih =>
      rw [List.length_append, List.length_singleton] at hlt
      rcases List.nodup_append.mp hnodup with ⟨hinit, -, hdisjoint⟩
      have hnew : account ∉ accounts := fun hmem => hdisjoint account hmem account (by simp) rfl
      have hsplit : entries (accounts ++ [account]) = entries accounts ++ [⟨0, account, 1⟩] := by
        simp [entries]
      -- a new validator with power one, behind those that are there
      have hpowers : Function.update (fun other => if other ∈ accounts then 1 else 0) account 1 =
          fun other => if other ∈ accounts ++ [account] then 1 else 0 := by
        funext other
        by_cases heq : other = account
        · subst heq
          simp
        · simp [heq]
      have hbefore := ih hinit (by omega)
      rw [run] at hbefore
      rw [run, hsplit, List.foldlM_append, hbefore, Result.ok_bind, List.foldlM_cons]
      have hadd := SafeMath.add_eq_ok_iff.mpr ⟨hlt, rfl⟩
      simp only [updatePower, enter, if_neg hnew, if_true, hadd, Result.ok_bind, Result.pure_eq, leave,
        Nat.one_ne_zero, if_false, hpowers, List.foldlM_nil, List.length_append, List.length_singleton]

/-- The byte that runs over the list has no value for its length. -/
theorem not_removes_of_length [SafeMath] {accounts : List Address} (hnodup : accounts.Nodup)
    (hlong : 256 ≤ accounts.length) (hlt : accounts.length < 2 ^ 256) (account : Address) :
    ¬ ∀ updates state account, run updates = .ok state →
      ∃ gas state', state.updatePower gas account 0 = .ok state' ∧
        state'.validators = state.validators.filter (· ≠ account) := by
  intro h
  have hrun := run_entries hnodup hlt
  have hshort := (sound_of_run hrun).removes_iff.mp (h _ _ account hrun)
  exact absurd (Nat.lt_of_le_of_lt (Nat.le_add_right _ _) hshort) (Nat.not_lt.mpr hlong)

/-- As many accounts as a byte can tell apart. -/
def manyAccounts : List Address := (List.range 256).map fun n => sampleAccount (UInt8.ofNat n)

theorem length_manyAccounts : manyAccounts.length = 256 := by
  rw [manyAccounts, List.length_map, List.length_range]

theorem nodup_manyAccounts : manyAccounts.Nodup := by
  refine List.nodup_range.map_on fun n hn m hm heq => ?_
  rw [List.mem_range] at hn hm
  have hbyte : UInt8.ofNat n = UInt8.ofNat m := by simpa [sampleAccount] using heq
  have hnat := congrArg UInt8.toNat hbyte
  simpa [Nat.mod_eq_of_lt hn, Nat.mod_eq_of_lt hm] using hnat

theorem not_removes :
    ¬ ∀ updates state account, run updates = .ok state →
      ∃ gas state', state.updatePower gas account 0 = .ok state' ∧
        state'.validators = state.validators.filter (· ≠ account) :=
  not_removes_of_length nodup_manyAccounts (by rw [length_manyAccounts])
    (by rw [length_manyAccounts]; norm_num) (sampleAccount 0)

end ValidatorSet
end EventProvider
end UniqysKit
