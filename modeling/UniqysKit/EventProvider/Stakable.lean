import Mathlib.Algebra.BigOperators.Group.Finset.Piecewise
import Mathlib.Algebra.Order.BigOperators.Group.Finset
import UniqysKit.EventProvider.Removal

/-!
# Staking

`Stakable.sol`: tokens are burned for power in the validator set, and minted for power that is given
back.  The token contract is not part of this repository; what is used of it is in `ERC20`.

Tokens and power go up and down together, so their sums stay the same.  But `stakeWithdraw` asks whether
the account has enough tokens, where it means power: what was staked can only be withdrawn by who has
as much again.
-/

namespace UniqysKit
namespace EventProvider

/-! ## The token -/

structure Token where
  balanceOf : Address → Nat
  totalSupply : Nat

/-- The functions of `ERC20.sol` that are called, or that move tokens. -/
structure ERC20 where
  burn : Address → Nat → Token → Result Token
  mint : Address → Nat → Token → Result Token
  transfer : Address → Address → Nat → Token → Result Token

namespace ERC20

/-- `_burn` and `_mint` change the balance and the supply by exactly the amount, or revert. -/
structure Exact (erc20 : ERC20) : Prop where
  burn : ∀ {account value token token'}, erc20.burn account value token = .ok token' →
    value ≤ token.balanceOf account ∧ value ≤ token.totalSupply ∧
      token' = ⟨Function.update token.balanceOf account (token.balanceOf account - value),
        token.totalSupply - value⟩
  mint : ∀ {account value token token'}, erc20.mint account value token = .ok token' →
    token' = ⟨Function.update token.balanceOf account (token.balanceOf account + value),
      token.totalSupply + value⟩

/-- Besides, a transfer moves what is there, and `_mint` only reverts for the zero address or where a
number is too large. -/
structure Standard (erc20 : ERC20) : Prop extends erc20.Exact where
  transfer : ∀ {sender to' value token token'}, erc20.transfer sender to' value token = .ok token' →
    value ≤ token.balanceOf sender ∧ token'.totalSupply = token.totalSupply ∧
      token'.balanceOf =
        let balances := Function.update token.balanceOf sender (token.balanceOf sender - value)
        Function.update balances to' (balances to' + value)
  mints : ∀ {account value token}, account ≠ Address.zero → token.totalSupply + value < 2 ^ 256 →
    token.balanceOf account + value < 2 ^ 256 → ∃ token', erc20.mint account value token = .ok token'

/-- The token contract as it is. -/
def zeppelin [SafeMath] : ERC20 where
  burn account value token :=
    if account = Address.zero then .error reverted
    else do
      let totalSupply ← SafeMath.sub token.totalSupply value
      let balance ← SafeMath.sub (token.balanceOf account) value
      return ⟨Function.update token.balanceOf account balance, totalSupply⟩
  mint account value token :=
    if account = Address.zero then .error reverted
    else do
      let totalSupply ← SafeMath.add token.totalSupply value
      let balance ← SafeMath.add (token.balanceOf account) value
      return ⟨Function.update token.balanceOf account balance, totalSupply⟩
  transfer sender to' value token :=
    if to' = Address.zero then .error reverted
    else do
      let left ← SafeMath.sub (token.balanceOf sender) value
      let balances := Function.update token.balanceOf sender left
      let more ← SafeMath.add (balances to') value
      return ⟨Function.update balances to' more, token.totalSupply⟩

theorem zeppelin_standard [SafeMath] : zeppelin.Standard where
  burn := by
    intro account value token token' h
    simp only [zeppelin] at h
    split at h
    · -- the zero address
      cases h
    · rcases Result.bind_eq_ok.mp h with ⟨totalSupply, hsupply, h⟩
      rcases Result.bind_eq_ok.mp h with ⟨balance, hbalance, h⟩
      -- both subtractions are checked
      rcases SafeMath.sub_eq_ok_iff.mp hsupply with ⟨hle, rfl⟩
      rcases SafeMath.sub_eq_ok_iff.mp hbalance with ⟨hle', rfl⟩
      cases h
      exact ⟨hle', hle, rfl⟩
  mint := by
    intro account value token token' h
    simp only [zeppelin] at h
    split at h
    · cases h
    · rcases Result.bind_eq_ok.mp h with ⟨totalSupply, hsupply, h⟩
      rcases Result.bind_eq_ok.mp h with ⟨balance, hbalance, h⟩
      -- neither of the sums overflows
      rcases SafeMath.add_eq_ok_iff.mp hsupply with ⟨-, rfl⟩
      rcases SafeMath.add_eq_ok_iff.mp hbalance with ⟨-, rfl⟩
      cases h
      rfl
  transfer := by
    intro sender to' value token token' h
    simp only [zeppelin] at h
    split at h
    · cases h
    · rcases Result.bind_eq_ok.mp h with ⟨left, hleft, h⟩
      rcases Result.bind_eq_ok.mp h with ⟨more, hmore, h⟩
      rcases SafeMath.sub_eq_ok_iff.mp hleft with ⟨hle, rfl⟩
      rcases SafeMath.add_eq_ok_iff.mp hmore with ⟨-, rfl⟩
      cases h
      exact ⟨hle, rfl, rfl⟩
  mints := by
    intro account value token hne hsupply hbalance
    simp only [zeppelin, if_neg hne, SafeMath.add_eq_ok_iff.mpr ⟨hsupply, rfl⟩,
      SafeMath.add_eq_ok_iff.mpr ⟨hbalance, rfl⟩, Result.ok_bind]
    exact ⟨_, rfl⟩

end ERC20

/-- However many accounts are taken, they do not have more tokens than there are. -/
def Token.Backed (token : Token) : Prop :=
  ∀ accounts : Finset Address, ∑ account ∈ accounts, token.balanceOf account ≤ token.totalSupply

namespace Token

variable {token : Token} {account : Address}

theorem Backed.balance_le (h : token.Backed) (account : Address) :
    token.balanceOf account ≤ token.totalSupply := by
  have hsingle := h {account}
  rwa [Finset.sum_singleton] at hsingle

/-- A balance and the supply change by the same amount. -/
theorem Backed.update {balance supply : Nat} (h : token.Backed)
    (hchange : balance + token.totalSupply = token.balanceOf account + supply) :
    Backed ⟨Function.update token.balanceOf account balance, supply⟩ := by
  intro accounts
  -- the account and the others; counting it where it is not asked for only makes the sum greater
  have hothers : ∑ other ∈ accounts.erase account,
      Function.update token.balanceOf account balance other =
        ∑ other ∈ accounts.erase account, token.balanceOf other :=
    Finset.sum_congr rfl fun other hother =>
      Function.update_of_ne (Finset.ne_of_mem_erase hother) _ _
  have hsub : accounts ⊆ insert account (accounts.erase account) :=
    Finset.subset_insert_iff.mpr subset_rfl
  have hle := Finset.sum_le_sum_of_subset
    (f := Function.update token.balanceOf account balance) hsub
  have hbefore := h (insert account (accounts.erase account))
  rw [Finset.sum_insert (Finset.notMem_erase account accounts)] at hbefore hle
  rw [Function.update_self, hothers] at hle
  simp only
  omega

end Token

/-! ## The contract -/

/-- The state of `Stakable`. -/
structure Stakable where
  token : Token
  validatorSet : ValidatorSet

/-- `msg.sender`, which is never the zero address. -/
abbrev Caller := { account : Address // account ≠ Address.zero }

/-- A call of a public function that stakes. -/
inductive Stake
  | stakeDeposit (power : Nat)
  | stakeWithdraw (power : Nat)

/-- A transaction; `gas` bounds the loop of `_updatePower`. -/
structure StakeTransaction where
  sender : Caller
  gas : Nat
  call : Stake

namespace Stakable

variable (erc20 : ERC20)

/-- `_stakeDeposit`. -/
def stakeDeposit [SafeMath] (gas : Nat) (account : Address) (power : Nat) (state : Stakable) :
    Result Stakable :=
  if state.token.balanceOf account ≥ power then do
    let token ← erc20.burn account power state.token
    let currentPower := state.validatorSet.powers account
    let validatorSet ← state.validatorSet.updatePower gas account (← SafeMath.add currentPower power)
    return ⟨token, validatorSet⟩
  else .error ⟨"not enough balance"⟩

/-- `_stakeWithdraw`. -/
def stakeWithdraw [SafeMath] (gas : Nat) (account : Address) (power : Nat) (state : Stakable) :
    Result Stakable :=
  if state.token.balanceOf account ≥ power then do
    let token ← erc20.mint account power state.token
    let currentPower := state.validatorSet.powers account
    let validatorSet ← state.validatorSet.updatePower gas account (← SafeMath.sub currentPower power)
    return ⟨token, validatorSet⟩
  else .error ⟨"not enough stake"⟩

def call [SafeMath] (tx : StakeTransaction) : Stakable → Result Stakable :=
  match tx.call with
  | .stakeDeposit power => stakeDeposit erc20 tx.gas tx.sender power
  | .stakeWithdraw power => stakeWithdraw erc20 tx.gas tx.sender power

/-- The state after a transaction: one that reverts changes nothing. -/
def commit (result : Result Stakable) (state : Stakable) : Stakable := result.toOption.getD state

/-- The state after some transactions. -/
def stakeAll [SafeMath] (txs : List StakeTransaction) (state : Stakable) : Stakable :=
  txs.foldl (fun state tx => commit (call erc20 tx state) state) state

/-- What is true of both states if it is kept by a transaction that succeeds. -/
theorem commit_cases {result : Result Stakable} {state : Stakable} {P : Stakable → Prop}
    (hsame : P state) (hnext : ∀ state', result = .ok state' → P state') : P (commit result state) := by
  cases result with
  | ok state' => exact hnext state' rfl
  | error e => exact hsame

/-! ## What stays the same -/

/-- The tokens and the power of each account, and of all, have the same sum. -/
structure Conserves (state state' : Stakable) : Prop where
  account : ∀ account, state'.token.balanceOf account + state'.validatorSet.powers account =
    state.token.balanceOf account + state.validatorSet.powers account
  total : state'.token.totalSupply + state'.validatorSet.totalPower =
    state.token.totalSupply + state.validatorSet.totalPower

section Conserves

variable {erc20} {state state' state'' : Stakable} {account : Address} {power gas : Nat}

theorem Conserves.refl (state : Stakable) : Conserves state state := ⟨fun _ => rfl, rfl⟩

theorem Conserves.trans (h : Conserves state state') (h' : Conserves state' state'') :
    Conserves state state'' :=
  ⟨fun account => (h'.account account).trans (h.account account), h'.total.trans h.total⟩

/-- The total changes by as much as the power of the account. -/
theorem totalPower_of_updatePower [SafeMath] {table table' : ValidatorSet}
    (h : table.updatePower gas account power = .ok table') :
    table'.totalPower + table.powers account = table.totalPower + power := by
  rcases ValidatorSet.updatePower_eq_ok h with ⟨validators, hfirst, -, -⟩
  exact (ValidatorSet.enter_eq_ok hfirst).2.1

/-- A balance and a power that change against each other. -/
theorem conserves_of_update [SafeMath] {balance supply : Nat} {table' : ValidatorSet}
    (hupdate : state.validatorSet.updatePower gas account power = .ok table')
    (haccount : balance + power = state.token.balanceOf account + state.validatorSet.powers account)
    (hsupply : supply + power = state.token.totalSupply + state.validatorSet.powers account) :
    Conserves state ⟨⟨Function.update state.token.balanceOf account balance, supply⟩, table'⟩ := by
  have htotal := totalPower_of_updatePower hupdate
  rcases ValidatorSet.updatePower_eq_ok hupdate with ⟨validators, -, -, hpowers⟩
  refine ⟨?_, ?_⟩
  · intro other
    simp only [hpowers]
    by_cases heq : other = account
    · subst heq
      rw [Function.update_self, Function.update_self, haccount]
    · rw [Function.update_of_ne heq, Function.update_of_ne heq]
  · simp only
    omega

/-- A deposit that succeeds, part by part. -/
theorem stakeDeposit_eq_ok [SafeMath] (hexact : erc20.Exact)
    (h : stakeDeposit erc20 gas account power state = .ok state') :
    power ≤ state.token.balanceOf account ∧ power ≤ state.token.totalSupply ∧
      state.validatorSet.updatePower gas account (state.validatorSet.powers account + power) =
        .ok state'.validatorSet ∧
      state'.token = ⟨Function.update state.token.balanceOf account
        (state.token.balanceOf account - power), state.token.totalSupply - power⟩ := by
  unfold stakeDeposit at h
  split at h
  · rcases Result.bind_eq_ok.mp h with ⟨token, hburn, hadding⟩
    rcases Result.bind_eq_ok.mp hadding with ⟨newPower, hadd, hupdating⟩
    rcases Result.bind_eq_ok.mp hupdating with ⟨table, hupdate, hstate⟩
    rcases SafeMath.add_eq_ok_iff.mp hadd with ⟨-, rfl⟩
    rcases hexact.burn hburn with ⟨hle, hle', rfl⟩
    cases hstate
    exact ⟨hle, hle', hupdate, rfl⟩
  · cases h

/-- A withdrawal that succeeds, part by part. -/
theorem stakeWithdraw_eq_ok [SafeMath] (hexact : erc20.Exact)
    (h : stakeWithdraw erc20 gas account power state = .ok state') :
    power ≤ state.token.balanceOf account ∧ power ≤ state.validatorSet.powers account ∧
      state.validatorSet.updatePower gas account (state.validatorSet.powers account - power) =
        .ok state'.validatorSet ∧
      state'.token = ⟨Function.update state.token.balanceOf account
        (state.token.balanceOf account + power), state.token.totalSupply + power⟩ := by
  unfold stakeWithdraw at h
  split at h
  · rename_i hbalance
    rcases Result.bind_eq_ok.mp h with ⟨token, hmint, hsubtracting⟩
    rcases Result.bind_eq_ok.mp hsubtracting with ⟨newPower, hsub, hupdating⟩
    rcases Result.bind_eq_ok.mp hupdating with ⟨table, hupdate, hstate⟩
    rcases SafeMath.sub_eq_ok_iff.mp hsub with ⟨hle, rfl⟩
    obtain rfl := hexact.mint hmint
    cases hstate
    exact ⟨hbalance, hle, hupdate, rfl⟩
  · cases h

theorem conserves_of_stakeDeposit [SafeMath] (hexact : erc20.Exact)
    (h : stakeDeposit erc20 gas account power state = .ok state') : Conserves state state' := by
  rcases stakeDeposit_eq_ok hexact h with ⟨hle, hle', hupdate, htoken⟩
  have hconserves : Conserves state ⟨⟨Function.update state.token.balanceOf account
      (state.token.balanceOf account - power), state.token.totalSupply - power⟩, _⟩ :=
    conserves_of_update hupdate (by omega) (by omega)
  rwa [← htoken] at hconserves

theorem conserves_of_stakeWithdraw [SafeMath] (hexact : erc20.Exact)
    (h : stakeWithdraw erc20 gas account power state = .ok state') : Conserves state state' := by
  rcases stakeWithdraw_eq_ok hexact h with ⟨-, hle, hupdate, htoken⟩
  have hconserves : Conserves state ⟨⟨Function.update state.token.balanceOf account
      (state.token.balanceOf account + power), state.token.totalSupply + power⟩, _⟩ :=
    conserves_of_update hupdate (by omega) (by omega)
  rwa [← htoken] at hconserves

theorem conserves_of_call [SafeMath] (hexact : erc20.Exact) {tx : StakeTransaction}
    (h : call erc20 tx state = .ok state') : Conserves state state' := by
  rcases tx with ⟨sender, gas, stake⟩
  cases stake with
  | stakeDeposit power => exact conserves_of_stakeDeposit hexact h
  | stakeWithdraw power => exact conserves_of_stakeWithdraw hexact h

end Conserves

/-- Whatever is staked and withdrawn, by whom and in what order, the tokens and the power of an account
have the same sum, and so have the supply and the total power. -/
theorem staking_conserves [SafeMath] (hexact : erc20.Exact) (txs : List StakeTransaction) (state : Stakable) :
    Conserves state (stakeAll erc20 txs state) := by
  induction txs generalizing state with
  | nil => exact .refl state
  | cons tx txs ih =>
      have hfirst : Conserves state (commit (call erc20 tx state) state) :=
        commit_cases (.refl state) fun state' h => conserves_of_call hexact h
      exact hfirst.trans (ih _)

/-- What an account stakes comes out of its balance, and another one withdraws more than it has. -/
def sampleStakes : List StakeTransaction :=
  [⟨⟨ValidatorSet.sampleAccount 1, by decide⟩, 9, .stakeDeposit 4⟩,
    ⟨⟨ValidatorSet.sampleAccount 2, by decide⟩, 9, .stakeWithdraw 1⟩]

/-- Ten tokens of one account. -/
def sampleToken : Token :=
  ⟨fun account => if account = ValidatorSet.sampleAccount 1 then 10 else 0, 10⟩

theorem staking_conserves_sample :
    Conserves ⟨sampleToken, .new⟩ (stakeAll ERC20.zeppelin sampleStakes ⟨sampleToken, .new⟩) :=
  staking_conserves _ ERC20.zeppelin_standard.toExact _ _

/-! ## Withdrawing -/

/-- A transaction that stakes, or by which tokens change hands; those may be moved for their owner. -/
inductive TokenTransaction
  | stake (tx : StakeTransaction)
  | transfer (owner to' : Address) (value : Nat)

def act [SafeMath] : TokenTransaction → Stakable → Result Stakable
  | .stake tx => call erc20 tx
  | .transfer owner to' value => fun state => do
      return { state with token := ← erc20.transfer owner to' value state.token }

def actAll [SafeMath] (txs : List TokenTransaction) (state : Stakable) : Stakable :=
  txs.foldl (fun state tx => commit (act erc20 tx state) state) state

/-- What every reachable state is like. -/
structure Sound (state : Stakable) : Prop where
  backed : state.token.Backed
  validatorSet : state.validatorSet.Sound
  total : state.token.totalSupply + state.validatorSet.totalPower < 2 ^ 256

section Reachable

variable {erc20} {state state' : Stakable} {account : Address} {power gas : Nat}

theorem Sound.stakeDeposit [SafeMath] (h : state.Sound) (hexact : erc20.Exact)
    (hdeposit : stakeDeposit erc20 gas account power state = .ok state') : state'.Sound := by
  rcases stakeDeposit_eq_ok hexact hdeposit with ⟨hle, hle', hupdate, htoken⟩
  refine ⟨?_, h.validatorSet.updatePower hupdate, ?_⟩
  · rw [htoken]
    exact h.backed.update (by omega)
  · rw [(conserves_of_stakeDeposit hexact hdeposit).total]
    exact h.total

theorem Sound.stakeWithdraw [SafeMath] (h : state.Sound) (hexact : erc20.Exact)
    (hwithdraw : stakeWithdraw erc20 gas account power state = .ok state') : state'.Sound := by
  rcases stakeWithdraw_eq_ok hexact hwithdraw with ⟨-, -, hupdate, htoken⟩
  refine ⟨?_, h.validatorSet.updatePower hupdate, ?_⟩
  · rw [htoken]
    exact h.backed.update (by omega)
  · rw [(conserves_of_stakeWithdraw hexact hwithdraw).total]
    exact h.total

theorem Sound.transfer (h : state.Sound) (hstandard : erc20.Standard) {owner to' : Address}
    {value : Nat} {token : Token} (htransfer : erc20.transfer owner to' value state.token = .ok token) :
    Sound { state with token := token } := by
  rcases hstandard.transfer htransfer with ⟨hle, hsupply, hbalances⟩
  have htotal := h.backed.balance_le owner
  refine ⟨?_, h.validatorSet, ?_⟩
  · -- the tokens leave the one account and come to the other
    have hleft : Token.Backed ⟨Function.update state.token.balanceOf owner
        (state.token.balanceOf owner - value), state.token.totalSupply - value⟩ :=
      h.backed.update (by omega)
    rcases token with ⟨balanceOf, totalSupply⟩
    simp only at hsupply hbalances
    subst hsupply hbalances
    exact hleft.update (by simp only; omega)
  · rw [hsupply]
    exact h.total

theorem Sound.act [SafeMath] (h : state.Sound) (hstandard : erc20.Standard) {tx : TokenTransaction}
    (hact : act erc20 tx state = .ok state') : state'.Sound := by
  cases tx with
  | stake tx =>
      rcases tx with ⟨sender, gas, stake⟩
      cases stake with
      | stakeDeposit power => exact h.stakeDeposit hstandard.toExact hact
      | stakeWithdraw power => exact h.stakeWithdraw hstandard.toExact hact
  | transfer owner to' value =>
      rcases Result.bind_eq_ok.mp hact with ⟨token, htransfer, hstate⟩
      cases hstate
      exact h.transfer hstandard htransfer

theorem Sound.actAll [SafeMath] (h : state.Sound) (hstandard : erc20.Standard) (txs : List TokenTransaction) :
    (actAll erc20 txs state).Sound := by
  induction txs generalizing state with
  | nil => exact h
  | cons tx txs ih =>
      exact ih (commit_cases (P := Sound) h fun state' hact => h.act hstandard hact)

/-- The tokens of a withdrawal can be minted. -/
theorem Sound.exists_mint (h : state.Sound) (hstandard : erc20.Standard) {account : Caller}
    (hle : power ≤ state.validatorSet.powers account) :
    ∃ token, erc20.mint account power state.token = .ok token := by
  have hpower := h.validatorSet.consistent.powers_le account
  have hbalance := h.backed.balance_le account
  have htotal := h.total
  exact hstandard.mints account.property (by omega) (by omega)

/-- A withdrawal succeeds for who has the tokens and the power, if the table can be updated. -/
theorem Sound.exists_stakeWithdraw_iff [SafeMath] (h : state.Sound) (hstandard : erc20.Standard)
    (account : Caller) :
    (∃ gas state', Stakable.stakeWithdraw erc20 gas account power state = .ok state') ↔
      power ≤ state.token.balanceOf account ∧ power ≤ state.validatorSet.powers account ∧
        (state.validatorSet.powers account - power = 0 → state.validatorSet.validators.length +
          (if state.validatorSet.powers account = 0 then 1 else 0) < 256) := by
  have hlowers := @ValidatorSet.Sound.lowers_iff _ account _ _ h.validatorSet
    (Nat.sub_le (state.validatorSet.powers account) power)
  constructor
  · rintro ⟨gas, state', hwithdraw⟩
    rcases stakeWithdraw_eq_ok hstandard.toExact hwithdraw with ⟨hbalance, hle, hupdate, -⟩
    exact ⟨hbalance, hle, hlowers.mp ⟨gas, _, hupdate⟩⟩
  · rintro ⟨hbalance, hle, hlength⟩
    rcases h.exists_mint hstandard hle with ⟨token, hmint⟩
    rcases hlowers.mpr hlength with ⟨gas, table, hupdate⟩
    refine ⟨gas, ⟨token, table⟩, ?_⟩
    rw [Stakable.stakeWithdraw, if_pos hbalance, hmint, Result.ok_bind]
    simp only [SafeMath.sub_eq_ok_iff.mpr ⟨hle, rfl⟩, Result.ok_bind, hupdate]
    rfl

end Reachable

/-- Where the contract is deployed. -/
theorem sound_of_backed {token : Token} (hbacked : token.Backed) (hsupply : token.totalSupply < 2 ^ 256) :
    Sound ⟨token, .new⟩ :=
  ⟨hbacked, ValidatorSet.sound_new, hsupply⟩

/-- A withdrawal succeeds exactly if there is so much power, if and only if there is less, or the account
has as many tokens besides; of no power nothing can be withdrawn either where the list is full. -/
theorem withdraws_iff_balance [SafeMath] (hstandard : erc20.Standard) (token : Token) (hbacked : token.Backed)
    (hsupply : token.totalSupply < 2 ^ 256) (txs : List TokenTransaction) (state : Stakable)
    (hstate : state = actAll erc20 txs ⟨token, .new⟩)
    (hlength : state.validatorSet.validators.length < 256) (account : Caller) (power : Nat) :
    ((∃ gas state', stakeWithdraw erc20 gas account power state = .ok state') ↔
      power ≤ state.validatorSet.powers account) ↔
      state.validatorSet.powers account < power ∨ (power ≤ state.token.balanceOf account ∧
        ¬(state.validatorSet.powers account = 0 ∧
          state.validatorSet.validators.length = 255)) := by
  have hsound : state.Sound := by
    rw [hstate]
    exact (sound_of_backed hbacked hsupply).actAll hstandard txs
  rw [hsound.exists_stakeWithdraw_iff hstandard account]
  by_cases hpower : state.validatorSet.powers account = 0
  · rw [if_pos hpower]
    omega
  · rw [if_neg hpower]
    omega

/-- Two transactions, after which one account has staked six of its ten tokens. -/
def sampleTransactions : List TokenTransaction :=
  [.transfer (ValidatorSet.sampleAccount 1) (ValidatorSet.sampleAccount 2) 0,
    .stake ⟨⟨ValidatorSet.sampleAccount 1, by decide⟩, 9, .stakeDeposit 6⟩]

theorem backed_sampleToken : sampleToken.Backed := by
  intro accounts
  simp only [sampleToken, Finset.sum_ite_eq']
  split <;> omega

theorem withdraws_iff_balance_sample :
    let state := actAll ERC20.zeppelin sampleTransactions ⟨sampleToken, .new⟩
    ((∃ gas state', stakeWithdraw ERC20.zeppelin gas (ValidatorSet.sampleAccount 1) 3 state =
        .ok state') ↔ 3 ≤ state.validatorSet.powers (ValidatorSet.sampleAccount 1)) ↔
      state.validatorSet.powers (ValidatorSet.sampleAccount 1) < 3 ∨
        (3 ≤ state.token.balanceOf (ValidatorSet.sampleAccount 1) ∧
          ¬(state.validatorSet.powers (ValidatorSet.sampleAccount 1) = 0 ∧
            state.validatorSet.validators.length = 255)) :=
  withdraws_iff_balance _ ERC20.zeppelin_standard sampleToken backed_sampleToken (by decide)
    sampleTransactions _ rfl (by decide +kernel) ⟨ValidatorSet.sampleAccount 1, by decide⟩ 3

/-- Six tokens are staked, and with four left five of the six cannot be withdrawn. -/
theorem not_withdraws :
    ¬ ∀ (erc20 : ERC20) (_ : erc20.Standard) (token : Token) (_ : token.Backed)
      (_ : token.totalSupply < 2 ^ 256) (txs : List TokenTransaction) (state : Stakable)
      (_ : state = actAll erc20 txs ⟨token, .new⟩)
      (_ : state.validatorSet.validators.length < 256) (account : Caller) (power : Nat),
      (∃ gas state', stakeWithdraw erc20 gas account power state = .ok state') ↔
        power ≤ state.validatorSet.powers account := by
  intro h
  have hiff := h ERC20.zeppelin ERC20.zeppelin_standard sampleToken backed_sampleToken (by decide)
    sampleTransactions _ rfl (by decide +kernel) ⟨ValidatorSet.sampleAccount 1, by decide⟩ 5
  rcases hiff.mpr (by decide +kernel) with ⟨gas, state', hwithdraw⟩
  rcases stakeWithdraw_eq_ok ERC20.zeppelin_standard.toExact hwithdraw with ⟨hbalance, -⟩
  exact absurd hbalance (by decide +kernel)

end Stakable
end EventProvider
end UniqysKit
