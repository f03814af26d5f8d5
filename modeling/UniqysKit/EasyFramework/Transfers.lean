import Mathlib.Algebra.BigOperators.Group.Finset.Basic
import Mathlib.Algebra.Order.Floor.Ring
import UniqysKit.EasyFramework.Replay

/-!
# Transfers

`POST /accounts/:address/transfer` of the inner API: one account is read, changed and written, and then
another.  Where every entry of an account can be read, this is a transfer between the accounts of a table.

A value is any number but zero.  Sums and differences are rounded to doubles, and what is written of a
balance is its integer part.  When the second balance cannot be written the first one has been, so
`transfer_iff_fits` has a condition.
-/

namespace UniqysKit
namespace EasyFramework

open Library

/-! ## A table of accounts -/

/-- The account that reading gives back. -/
def Account.written (account : Account) : Result Account := do
  let _ ← UInt64.serialize account.nonce
  return ⟨account.nonce, ← writtenNumber account.balance⟩

abbrev Accounts := Address → Account

namespace Accounts

def get (address : Address) : Action Accounts Account := fun accounts => .ok (accounts address) accounts

def set (address : Address) (account : Account) : Action Accounts Unit := do
  let written ← Action.fromResult account.written
  modify fun accounts => Function.update accounts address written

def transfer (fromAddress toAddress : Address) (value : ℚ) : Action Accounts Unit := do
  let fromAccount ← get fromAddress
  set fromAddress (← Action.fromResult (fromAccount.decreaseBalance value))
  let toAccount ← get toAddress
  set toAddress (toAccount.increaseBalance value)

/-- The entries of the accounts can be read. -/
def Read (contents : Contents) (accounts : Accounts) : Prop :=
  ∀ address : Address, State.accountOf (contents address.buffer) = .ok (accounts address)

/-! ### Reading and writing -/

section Read

variable {contents : Contents} {accounts : Accounts}

/-- What is written of an account is what can be read of it. -/
theorem accountOf_serialize_eq {account : Account} {value : Bytes} (h : account.serialize = .ok value) :
    value.length = 16 ∧ ∃ written, account.written = .ok written ∧
      State.accountOf (some value) = .ok written := by
  rcases Result.bind_eq_ok.1 h with ⟨nonce, hnonce, hrest⟩
  rcases Result.bind_eq_ok.1 hrest with ⟨written, hwritten, hrest'⟩
  rcases Result.bind_eq_ok.1 hrest' with ⟨balance, hbalance, hvalue⟩
  cases hvalue
  have hread := UInt64.deserialize_append hbalance []
  rw [List.append_nil] at hread
  refine ⟨?_, ⟨account.nonce, written⟩, ?_, ?_⟩
  · rcases UInt64.serialize_ok hnonce with ⟨-, rfl⟩
    rcases UInt64.serialize_ok hbalance with ⟨-, rfl⟩
    simp
  · simp only [Account.written, hnonce, hwritten, Result.ok_bind, Result.pure_eq]
  · simp only [State.accountOf, Account.deserialize, UInt64.deserialize_append hnonce, hread,
      Result.ok_bind, Result.pure_eq]

/-- An account that cannot be written. -/
theorem written_of_serialize_error {account : Account} {e : Error} (h : account.serialize = .error e) :
    account.written = .error e := by
  unfold Account.serialize at h
  unfold Account.written
  cases hnonce : UInt64.serialize account.nonce with
  | error e' =>
      rw [hnonce] at h
      cases h
      rfl
  | ok nonce =>
      rw [hnonce] at h
      cases hnumber : writtenNumber account.balance with
      | error e' =>
          rw [hnumber] at h
          cases h
          rfl
      | ok n =>
          rcases writtenNumber_eq_ok.mp hnumber with ⟨hle, hneg, rfl⟩
          -- what is written of a number has room
          have hlt : ⌊account.balance⌋.toNat < 2 ^ 48 := by
            have hfloor := Int.floor_le account.balance
            have hlast : (⌊account.balance⌋ : ℚ) ≤ ((2 ^ 48 - 1 : Int) : ℚ) := by
              refine hfloor.trans ?_
              norm_num at hle ⊢
              exact hle
            have hint := Int.cast_le.mp hlast
            omega
          rw [hnumber, Result.ok_bind, Result.ok_bind, UInt64.serialize_of_lt hlt] at h
          cases h

/-- An account that was read can be written back. -/
theorem Read.written (h : Read contents accounts) (address : Address) :
    (accounts address).written = .ok (accounts address) ∧
      ∃ n : Nat, n < 2 ^ 48 ∧ (accounts address).balance = n := by
  have hwritten : ∀ nonce balance : Nat, nonce < 2 ^ 48 → balance < 2 ^ 48 →
      Account.written ⟨nonce, balance⟩ = .ok ⟨nonce, balance⟩ := by
    intro nonce balance hnonce hbalance
    simp only [Account.written, UInt64.serialize_of_lt hnonce, writtenNumber_natCast hbalance,
      Result.ok_bind, Result.pure_eq]
  have haddress := h address
  -- without an entry the account is zero, otherwise its numbers have been read from six bytes
  cases hvalue : contents address.buffer with
  | none =>
      rw [hvalue] at haddress
      rw [← Except.ok.inj haddress]
      exact ⟨hwritten 0 0 (by decide) (by decide), 0, by decide, rfl⟩
  | some value =>
      rw [hvalue] at haddress
      rcases Result.bind_eq_ok.mp haddress with ⟨⟨account, rest⟩, hdeserialize, haccount⟩
      rcases Result.bind_eq_ok.mp hdeserialize with ⟨⟨nonce, rest'⟩, hnonce, hbalance⟩
      rcases Result.bind_eq_ok.mp hbalance with ⟨⟨balance, rest''⟩, hbalance', hpair⟩
      cases hpair
      rw [← Except.ok.inj haccount]
      have hlt := UInt64.lt_of_deserialize hbalance'
      exact ⟨hwritten nonce balance (UInt64.lt_of_deserialize hnonce) hlt, balance, hlt, rfl⟩

end Read

/-! ### The code on the table -/

/-- Where the accounts can be read, the code does on the contents what the action does on the table. -/
abbrev OnTable {α : Type} (code : Action Contents α) (action : Action Accounts α) : Prop :=
  Fallible.Simulates (fun _ => True) Read code action

theorem onTable_getAccount (address : Address) :
    OnTable (InnerApi.getAccountCode address).onContents (get address) := by
  refine ⟨fun _ _ => trivial, ?_⟩
  intro contents accounts hread _
  have hrun : (InnerApi.getAccountCode address).onContents contents =
      Code.onContents (.done (State.accountOf (contents address.buffer))) contents := rfl
  rw [hrun, hread address]
  exact ⟨rfl, hread⟩

theorem onTable_done {α : Type} (result : Result α) :
    OnTable (Code.onContents (.done result)) (Action.fromResult result) := by
  cases result with
  | ok a => exact .pure a
  | error e => exact .throw e

theorem onTable_setAccount (address : Address) (account : Account) :
    OnTable (InnerApi.setAccountCode address account).onContents (set address account) := by
  refine ⟨fun _ _ => trivial, ?_⟩
  intro contents accounts hread _
  cases hvalue : account.serialize with
  | error e =>
      have hcode : (InnerApi.setAccountCode address account).onContents contents =
          .error e contents := by
        rw [InnerApi.setAccountCode, Code.onContents, Program.run_bind, hvalue]
        rfl
      rw [hcode, set, written_of_serialize_error hvalue]
      exact ⟨rfl, hread⟩
  | ok value =>
      rcases accountOf_serialize_eq hvalue with ⟨hlength, written, hwritten, haccount⟩
      -- an account takes few bytes, so the platform has buffers for it
      have hsmall : address.buffer.length < 2 ^ 31 ∧ value.length < 2 ^ 31 := by
        rw [address.size, hlength]
        decide
      have hcode : (InnerApi.setAccountCode address account).onContents contents =
          .ok () ((Operation.set ⟨address.buffer, value, hsmall.1, hsmall.2⟩).update contents) := by
        have hcontent : State.content address.buffer value =
            .ok ⟨address.buffer, value, hsmall.1, hsmall.2⟩ := dif_pos hsmall
        rw [InnerApi.setAccountCode, Code.onContents, Program.run_bind, hvalue]
        simp only [Program.run, pure_bind, Program.run_bind, hcontent]
        rfl
      rw [hcode, set, hwritten]
      refine ⟨rfl, ?_⟩
      show Read _ (Function.update accounts address written)
      intro other
      by_cases heq : other = address
      · subst heq
        rw [Function.update_self, Fallible.final_ok, Operation.update, if_pos rfl]
        exact haccount
      · -- different addresses are different keys
        have hne : other.buffer ≠ address.buffer := fun hbuffer => heq (Address.ext hbuffer)
        rw [Function.update_of_ne heq, Fallible.final_ok, Operation.update, if_neg hne]
        exact hread other

theorem onTable_transfer (fromAddress toAddress : Address) {number : Option ℚ} {value : ℚ}
    (hvalue : InnerApi.truthyNumber number = some value) :
    OnTable (Code.onContents
      (InnerApi.transferCode (some fromAddress) (some toAddress) number).forget)
      (transfer fromAddress toAddress value) := by
  simp only [Code.onContents, Code.forget, InnerApi.transferCode, InnerApi.assert400Code, hvalue,
    Program.run_bind, Program.run_pure, pure_bind, bind_assoc]
  refine (onTable_getAccount fromAddress).bind fun fromAccount => ?_
  refine (onTable_done _).bind fun decreased => ?_
  refine (onTable_setAccount fromAddress decreased).bind fun _ => ?_
  refine (onTable_getAccount toAddress).bind fun toAccount => ?_
  simpa using onTable_setAccount toAddress (toAccount.increaseBalance value)

/-! ## What a transfer does to the table -/

/-- A transfer as it should be. -/
structure Transferred (before after : Accounts) (fromAddress toAddress : Address) (value : ℚ) : Prop where
  positive : ∃ n : Nat, 0 < n ∧ value = n
  covered : value ≤ (before fromAddress).balance
  sum : ∀ addresses : Finset Address, fromAddress ∈ addresses → toAddress ∈ addresses →
    ∑ address ∈ addresses, (after address).balance = ∑ address ∈ addresses, (before address).balance
  others : ∀ address, address ≠ fromAddress → address ≠ toAddress → after address = before address

/-- Nothing is written, or both balances can be, or what is written of the first one is its old value. -/
def Fits (accounts : Accounts) (fromAddress toAddress : Address) (value : ℚ) : Prop :=
  (accounts fromAddress).balance < value ∨
    2 ^ 48 - 1 < Doubles.toNumber ((accounts fromAddress).balance - value) ∨
    (∃ n : Nat, 0 < n ∧ value = n) ∧
      (fromAddress = toAddress ∨ (accounts toAddress).balance + value ≤ 2 ^ 48 - 1) ∨
    value < 0 ∧
      Doubles.toNumber ((accounts fromAddress).balance - value) < (accounts fromAddress).balance + 1 ∧
        (accounts toAddress).balance = 0

section Transfer

variable {contents : Contents} {accounts : Accounts} {fromAddress toAddress address : Address} {value : ℚ}

/-- The integer part. -/
theorem floor_of_written {q : ℚ} {n : Nat} (h : writtenNumber q = .ok n) : (n : ℚ) ≤ q ∧ q < n + 1 := by
  rcases writtenNumber_eq_ok.mp h with ⟨-, hpos, rfl⟩
  have hfloor : ((⌊q⌋.toNat : Nat) : ℚ) = (⌊q⌋ : ℚ) := by
    have hint : ((⌊q⌋.toNat : Nat) : Int) = ⌊q⌋ := Int.toNat_of_nonneg (Int.floor_nonneg.mpr hpos)
    exact_mod_cast hint
  rw [hfloor]
  exact ⟨Int.floor_le q, Int.lt_floor_add_one q⟩

theorem written_eq_iff {q : ℚ} {n m : Nat} (h : writtenNumber q = .ok n) :
    (n : ℚ) = m ↔ (m : ℚ) ≤ q ∧ q < m + 1 := by
  rcases floor_of_written h with ⟨hle, hlt⟩
  constructor
  · intro heq
    rw [← heq]
    exact ⟨hle, hlt⟩
  · rintro ⟨hle', hlt'⟩
    have hnm : (n : ℚ) < (m + 1 : Nat) := by
      push_cast
      linarith
    have hmn : (m : ℚ) < (n + 1 : Nat) := by
      push_cast
      linarith
    have heq : n = m := by
      have hnm' := Nat.cast_lt.mp hnm
      have hmn' := Nat.cast_lt.mp hmn
      omega
    rw [heq]

theorem range_of_error {q : ℚ} {e : Error} (h : writtenNumber q = .error e) : 2 ^ 48 - 1 < q ∨ q < 0 := by
  by_contra hrange
  rw [not_or, not_lt, not_lt] at hrange
  have hok := writtenNumber_eq_ok.mpr ⟨hrange.1, hrange.2, rfl⟩
  rw [h] at hok
  cases hok

/-- Another balance of an account that can be written. -/
theorem written_balance {account written : Account} (h : account.written = .ok written) (q : ℚ) :
    Account.written ⟨account.nonce, q⟩ =
      (writtenNumber q).map fun n => (⟨account.nonce, n⟩ : Account) := by
  rcases Result.bind_eq_ok.mp h with ⟨bytes, hnonce, -⟩
  simp only [Account.written, hnonce, Result.ok_bind]
  cases writtenNumber q with
  | ok n => rfl
  | error e => rfl

/-- Writing a balance, or failing to. -/
theorem set_balance {written : Account} (h : (accounts address).written = .ok written) (q : ℚ) :
    set address ⟨(accounts address).nonce, q⟩ accounts =
      match writtenNumber q with
      | .ok n => .ok () (Function.update accounts address ⟨(accounts address).nonce, n⟩)
      | .error e => .error e accounts := by
  rw [set, written_balance h]
  cases writtenNumber q with
  | ok n => rfl
  | error e => rfl

/-- The balances after one of them was written. -/
theorem sum_update {addresses : Finset Address} (hmem : address ∈ addresses) (account : Account) :
    ∑ other ∈ addresses, (Function.update accounts address account other).balance +
        (accounts address).balance =
      ∑ other ∈ addresses, (accounts other).balance + account.balance := by
  have hothers : ∑ other ∈ addresses.erase address,
      (Function.update accounts address account other).balance =
        ∑ other ∈ addresses.erase address, (accounts other).balance :=
    Finset.sum_congr rfl fun other hother => by
      rw [Function.update_of_ne (Finset.ne_of_mem_erase hother)]
  rw [← Finset.add_sum_erase _ _ hmem, ← Finset.add_sum_erase _ (fun other => (accounts other).balance) hmem,
    hothers, Function.update_self]
  ring

/-- The table after the first account was written. -/
def debited (accounts : Accounts) (address : Address) (n : Nat) : Accounts :=
  Function.update accounts address ⟨(accounts address).nonce, n⟩

/-- A transfer that does not come to writing anything. -/
theorem transfer_refused (h : Read contents accounts)
    (hrefused : (accounts fromAddress).balance < value ∨
      2 ^ 48 - 1 < Doubles.toNumber ((accounts fromAddress).balance - value)) :
    ∃ e, transfer fromAddress toAddress value accounts = .error e accounts := by
  by_cases hless : (accounts fromAddress).balance < value
  · refine ⟨⟨"insufficient balance"⟩, ?_⟩
    simp only [transfer, Account.decreaseBalance]
    rw [Fallible.bind_ok (show get fromAddress accounts = .ok (accounts fromAddress) accounts from rfl),
      if_pos hless]
    rfl
  · have hgreat := hrefused.resolve_left hless
    refine ⟨⟨"The number is out of 48bit range"⟩, ?_⟩
    simp only [transfer, Account.decreaseBalance]
    rw [Fallible.bind_ok (show get fromAddress accounts = .ok (accounts fromAddress) accounts from rfl),
      if_neg hless, Action.fromResult_bind_ok rfl]
    refine Fallible.bind_error ?_
    rw [set_balance (h.written fromAddress).1, writtenNumber, if_pos hgreat]

/-- A transfer that writes the first account, and the second one if that is possible. -/
theorem transfer_debited (h : Read contents accounts) {n : Nat}
    (hcovered : value ≤ (accounts fromAddress).balance)
    (hdebit : writtenNumber (Doubles.toNumber ((accounts fromAddress).balance - value)) = .ok n) :
    transfer fromAddress toAddress value accounts =
      match writtenNumber
          (Doubles.toNumber ((debited accounts fromAddress n toAddress).balance + value)) with
      | .ok m => .ok () (debited (debited accounts fromAddress n) toAddress m)
      | .error e => .error e (debited accounts fromAddress n) := by
  -- the second account is read after the first was written, and the two may be the same
  have hwritten : ∃ written, (debited accounts fromAddress n toAddress).written = .ok written := by
    by_cases heq : toAddress = fromAddress
    · subst heq
      rw [debited, Function.update_self, written_balance (h.written toAddress).1]
      rcases writtenNumber_eq_ok.mp hdebit with ⟨hle, hpos, rfl⟩
      rcases floor_of_written hdebit with ⟨hbelow, -⟩
      rw [writtenNumber_eq_ok.mpr ⟨hbelow.trans hle, Nat.cast_nonneg _, rfl⟩]
      exact ⟨_, rfl⟩
    · rw [debited, Function.update_of_ne heq]
      exact ⟨_, (h.written toAddress).1⟩
  rcases hwritten with ⟨written, hwritten⟩
  have hset : set fromAddress
      ⟨(accounts fromAddress).nonce, Doubles.toNumber ((accounts fromAddress).balance - value)⟩
        accounts =
        .ok () (debited accounts fromAddress n) := by
    rw [set_balance (h.written fromAddress).1, hdebit]
    rfl
  simp only [transfer, Account.decreaseBalance, Account.increaseBalance]
  rw [Fallible.bind_ok (show get fromAddress accounts = .ok (accounts fromAddress) accounts from rfl),
    if_neg (not_lt.mpr hcovered), Action.fromResult_bind_ok rfl, Fallible.bind_ok hset,
    Fallible.bind_ok (show get toAddress (debited accounts fromAddress n) =
      .ok (debited accounts fromAddress n toAddress) (debited accounts fromAddress n) from rfl)]
  exact set_balance hwritten _

/-- What is written of a whole number is that number. -/
theorem written_natCast {n k : Nat} (hk : k < 2 ^ 53)
    (h : writtenNumber (Doubles.toNumber k) = .ok n) : n = k := by
  rcases writtenNumber_eq_ok.mp h with ⟨-, -, rfl⟩
  rw [Doubles.toNumber_natCast hk, Int.floor_natCast, Int.toNat_natCast]

/-- The debit leaves the account as it was. -/
theorem debited_eq_iff (h : Read contents accounts) {n : Nat}
    (hdebit : writtenNumber (Doubles.toNumber ((accounts fromAddress).balance - value)) = .ok n) :
    debited accounts fromAddress n = accounts ↔
      (accounts fromAddress).balance ≤ Doubles.toNumber ((accounts fromAddress).balance - value) ∧
        Doubles.toNumber ((accounts fromAddress).balance - value) <
          (accounts fromAddress).balance + 1 := by
  rcases h.written fromAddress with ⟨-, before, -, hbefore⟩
  have hsame : debited accounts fromAddress n = accounts ↔ (n : ℚ) = before := by
    rw [debited, Function.update_eq_self_iff]
    constructor
    · intro heq
      rw [← hbefore, ← heq]
    · intro heq
      rw [heq, ← hbefore]
  rw [hsame, written_eq_iff hdebit, hbefore]

/-- What was read of a balance is in the range of what can be written. -/
theorem Read.balance_range (h : Read contents accounts) (address : Address) :
    0 ≤ (accounts address).balance ∧ (accounts address).balance ≤ 2 ^ 48 - 1 := by
  rcases h.written address with ⟨-, n, hlt, hn⟩
  have hle : (n : ℚ) ≤ ((2 ^ 48 - 1 : Nat) : ℚ) := Nat.cast_le.mpr (by omega)
  rw [hn]
  refine ⟨Nat.cast_nonneg n, ?_⟩
  norm_num at hle ⊢
  exact hle

/-! ### Whole values -/

section Whole

variable {n m k : Nat}

/-- The first balance after a whole number was taken off. -/
theorem debit_natCast (h : Read contents accounts) (hcovered : (k : ℚ) ≤ (accounts fromAddress).balance)
    (hdebit : writtenNumber (Doubles.toNumber ((accounts fromAddress).balance - k)) = .ok n) :
    (n : ℚ) + k = (accounts fromAddress).balance := by
  rcases h.written fromAddress with ⟨-, before, hlt, hbefore⟩
  rw [hbefore] at hcovered hdebit ⊢
  have hle : k ≤ before := by exact_mod_cast hcovered
  rw [← Nat.cast_sub hle] at hdebit
  rw [written_natCast (by omega) hdebit]
  push_cast [hle]
  ring

variable (toAddress) in
/-- The second balance is an integer, also where it is the first one that has been written. -/
theorem exists_debited (h : Read contents accounts)
    (hdebit : writtenNumber (Doubles.toNumber ((accounts fromAddress).balance - k)) = .ok n) :
    ∃ there : Nat, there < 2 ^ 48 ∧ (debited accounts fromAddress n toAddress).balance = there := by
  by_cases heq : toAddress = fromAddress
  · subst heq
    rcases floor_of_written hdebit with ⟨hle, -⟩
    rcases writtenNumber_eq_ok.mp hdebit with ⟨hmost, -, -⟩
    refine ⟨n, ?_, by rw [debited, Function.update_self]⟩
    have hlt : (n : ℚ) < ((2 ^ 48 : Nat) : ℚ) := by
      push_cast
      linarith
    exact_mod_cast hlt
  · rcases h.written toAddress with ⟨-, there, hlt, hthere⟩
    exact ⟨there, hlt, by rw [debited, Function.update_of_ne heq, hthere]⟩

variable (toAddress) in
/-- Both sums of whole numbers are exact. -/
theorem toNumber_credit (h : Read contents accounts) (hcovered : (k : ℚ) ≤ (accounts fromAddress).balance)
    (hdebit : writtenNumber (Doubles.toNumber ((accounts fromAddress).balance - k)) = .ok n) :
    Doubles.toNumber ((debited accounts fromAddress n toAddress).balance + k) =
      (debited accounts fromAddress n toAddress).balance + k := by
  obtain ⟨there, hlt, hthere⟩ := exists_debited toAddress h hdebit
  rcases h.written fromAddress with ⟨-, before, hbefore_lt, hbefore⟩
  rw [hbefore] at hcovered
  have hle : k ≤ before := by exact_mod_cast hcovered
  rw [hthere, ← Nat.cast_add, Doubles.toNumber_natCast (by omega)]

/-- Both balances were written. -/
theorem transferred_iff (h : Read contents accounts) (hcovered : value ≤ (accounts fromAddress).balance)
    (hdebit : writtenNumber (Doubles.toNumber ((accounts fromAddress).balance - value)) = .ok n)
    (hcredit : writtenNumber
      (Doubles.toNumber ((debited accounts fromAddress n toAddress).balance + value)) = .ok m) :
    Transferred accounts (debited (debited accounts fromAddress n) toAddress m) fromAddress toAddress value ↔
      ∃ k : Nat, 0 < k ∧ value = k := by
  refine ⟨Transferred.positive, ?_⟩
  rintro ⟨k, hpos, rfl⟩
  have hn := debit_natCast h hcovered hdebit
  have hm : (m : ℚ) = (debited accounts fromAddress n toAddress).balance + k := by
    obtain ⟨there, hlt, hthere⟩ := exists_debited toAddress h hdebit
    have hsum := toNumber_credit toAddress h hcovered hdebit
    rcases writtenNumber_eq_ok.mp hcredit with ⟨-, -, rfl⟩
    rw [hsum, hthere, ← Nat.cast_add, Int.floor_natCast, Int.toNat_natCast]
  refine ⟨⟨k, hpos, rfl⟩, hcovered, ?_, ?_⟩
  · intro addresses hfrom hto
    have hfirst := @sum_update accounts fromAddress addresses hfrom ⟨(accounts fromAddress).nonce, n⟩
    have hsecond := @sum_update (debited accounts fromAddress n) toAddress addresses hto
      ⟨(debited accounts fromAddress n toAddress).nonce, m⟩
    simp only [debited] at *
    linarith
  · intro address hfrom hto
    rw [debited, Function.update_of_ne hto, debited, Function.update_of_ne hfrom]

/-- Of a balance that can be written the second time, where a whole number was taken off the first. -/
theorem credit_range (h : Read contents accounts) (hcovered : (k : ℚ) ≤ (accounts fromAddress).balance)
    (hdebit : writtenNumber (Doubles.toNumber ((accounts fromAddress).balance - k)) = .ok n) :
    fromAddress = toAddress ∨ (accounts toAddress).balance + k ≤ 2 ^ 48 - 1 ↔
      (debited accounts fromAddress n toAddress).balance + k ≤ 2 ^ 48 - 1 := by
  by_cases heq : toAddress = fromAddress
  · subst heq
    have hn := debit_natCast h hcovered hdebit
    refine iff_of_true (.inl rfl) ?_
    rw [debited, Function.update_self]
    show (n : ℚ) + k ≤ 2 ^ 48 - 1
    rw [hn]
    exact (h.balance_range toAddress).2
  · rw [debited, Function.update_of_ne heq, or_iff_right (Ne.symm heq)]

end Whole

/-! ### A debit that is lost -/

/-- What is lost by rounding the first balance is a small part of one. -/
theorem value_le_of_lost (h : Read contents accounts) (hpos : 0 < value)
    (hcovered : value ≤ (accounts fromAddress).balance)
    (hlost : (accounts fromAddress).balance ≤
      Doubles.toNumber ((accounts fromAddress).balance - value)) : value ≤ 1 / 64 := by
  rcases h.balance_range fromAddress with ⟨-, hmost⟩
  rw [Doubles.toNumber_of_nonneg (sub_nonneg.mpr hcovered)] at hlost
  have hround := Doubles.nearest_le_add ((accounts fromAddress).balance - value)
  have hunit := Doubles.unit_le (x := (accounts fromAddress).balance - value) (e := 48) (by norm_num)
    (by norm_num at hmost ⊢; linarith)
  norm_num at hunit
  linarith

variable (address) in
/-- Such a part does not bring the greatest balance to the next number. -/
theorem credit_of_small (h : Read contents accounts) (hpos : 0 < value) (hsmall : value ≤ 1 / 64) :
    Doubles.toNumber ((accounts address).balance + value) ≤ 2 ^ 48 - 1 := by
  rcases h.written address with ⟨-, there, hlt, hthere⟩
  rw [hthere]
  by_cases hlast : there = 2 ^ 48 - 1
  · subst hlast
    have hunit := Doubles.unit_eq (x := ((2 ^ 48 - 1 : Nat) : ℚ) + value) (e := 47) (by norm_num)
      (by norm_num; linarith) (by norm_num; linarith)
    have heven := Doubles.nearest_of_even (x := ((2 ^ 48 - 1 : Nat) : ℚ) + value)
      (m := 32 * (2 ^ 48 - 1)) (by norm_num) (by rw [hunit]; norm_num; linarith)
      (by rw [hunit]; norm_num; linarith)
    rw [Doubles.toNumber_of_nonneg (by positivity), heven, hunit]
    norm_num
  · have hle : ((there : ℚ) + value) ≤ ((2 ^ 48 - 1 : Nat) : ℚ) := by
      have hnat : (there : ℚ) + 1 ≤ ((2 ^ 48 - 1 : Nat) : ℚ) := by
        exact_mod_cast (by omega : there + 1 ≤ 2 ^ 48 - 1)
      linarith
    have hround := Doubles.toNumber_le_natCast (by norm_num) hle
    norm_num at hround ⊢
    exact hround

/-- The second balance cannot be written, after the first one was. -/
theorem debited_iff_fits (h : Read contents accounts) (hvalue : value ≠ 0) {n : Nat} {e : Error}
    (hcovered : value ≤ (accounts fromAddress).balance)
    (hdebit : writtenNumber (Doubles.toNumber ((accounts fromAddress).balance - value)) = .ok n)
    (hcredit : writtenNumber
      (Doubles.toNumber ((debited accounts fromAddress n toAddress).balance + value)) = .error e) :
    debited accounts fromAddress n = accounts ↔ Fits accounts fromAddress toAddress value := by
  rcases writtenNumber_eq_ok.mp hdebit with ⟨hroom, -, -⟩
  have hrange := range_of_error hcredit
  rw [debited_eq_iff h hdebit]
  constructor
  · intro hlost
    have hsame := (debited_eq_iff h hdebit).mpr hlost
    rw [hsame] at hrange
    rcases h.balance_range toAddress with ⟨-, hmost⟩
    rcases lt_or_gt_of_ne hvalue with hneg | hpos
    · refine .inr (.inr (.inr ⟨hneg, hlost.2, ?_⟩))
      rcases h.written toAddress with ⟨-, there, hthere_lt, hthere⟩
      rcases h.written fromAddress with ⟨-, before, hbefore_lt, hbefore⟩
      rw [hthere] at hrange hmost ⊢
      rw [hbefore] at hlost
      -- less than one is taken off, so there was nothing
      have hgreat : -1 < value := by
        by_contra hle
        have hnext : ((before + 1 : Nat) : ℚ) ≤ before - value := by
          push_cast
          linarith
        have hround := Doubles.natCast_le_toNumber (by omega) hnext
        push_cast at hround
        exact absurd hlost.2 (not_lt.mpr hround)
      by_contra hne
      have hone : (1 : ℚ) ≤ there := by
        exact_mod_cast Nat.one_le_iff_ne_zero.mpr fun hzero => hne (by rw [hzero, Nat.cast_zero])
      rcases hrange with hrange | hrange
      · have hround := Doubles.toNumber_le_natCast (n := there) (x := there + value) (by omega)
          (by linarith)
        linarith
      · have hround := Doubles.toNumber_nonneg (x := there + value) (by linarith)
        linarith
    · -- a value that was lost would be lost again
      have hsmall := value_le_of_lost h hpos hcovered hlost.1
      have hcredited := credit_of_small toAddress h hpos hsmall
      have hnonneg := Doubles.toNumber_nonneg (x := (accounts toAddress).balance + value)
        (add_nonneg (h.balance_range toAddress).1 hpos.le)
      rcases hrange with hrange | hrange
      · exact absurd hrange (not_lt.mpr hcredited)
      · exact absurd hrange (not_lt.mpr hnonneg)
  · rintro (hless | hgreat | ⟨⟨k, hpos, rfl⟩, hfits⟩ | ⟨hneg, hlost, -⟩)
    · exact absurd hless (not_lt.mpr hcovered)
    · exact absurd hgreat (not_lt.mpr hroom)
    · have hhigh := (credit_range h hcovered hdebit).mp hfits
      rw [toNumber_credit toAddress h hcovered hdebit] at hrange
      obtain ⟨there, -, hthere⟩ := exists_debited toAddress h hdebit
      rcases hrange with hrange | hrange
      · exact absurd hrange (not_lt.mpr hhigh)
      · rw [hthere] at hrange
        exact absurd hrange (not_lt.mpr (by positivity))
    · refine ⟨?_, hlost⟩
      rcases h.written fromAddress with ⟨-, before, hlt, hbefore⟩
      rw [hbefore]
      exact Doubles.natCast_le_toNumber (by omega) (by linarith)

/-- On the table: a transfer that succeeds is as it should be, and one that fails changes nothing, if and
only if it fits. -/
theorem ends_transfer_iff (h : Read contents accounts) (hvalue : value ≠ 0)
    (hdouble : Doubles.toNumber value = value) :
    Fallible.Ends (transfer fromAddress toAddress value) accounts
        (fun _ after => Transferred accounts after fromAddress toAddress value)
        (fun after => after = accounts) ↔
      Fits accounts fromAddress toAddress value := by
  unfold Fallible.Ends
  -- the three ways it can go: nothing is written, only the first account, or both
  by_cases hrefused : (accounts fromAddress).balance < value ∨
      2 ^ 48 - 1 < Doubles.toNumber ((accounts fromAddress).balance - value)
  · rcases @transfer_refused _ _ _ toAddress _ h hrefused with ⟨e, hrun⟩
    rw [hrun]
    refine iff_of_true rfl ?_
    rcases hrefused with hless | hgreat
    · exact .inl hless
    · exact .inr (.inl hgreat)
  · rw [not_or, not_lt, not_lt] at hrefused
    rcases hrefused with ⟨hcovered, hroom⟩
    have hdebit := writtenNumber_eq_ok.mpr
      ⟨hroom, Doubles.toNumber_nonneg (sub_nonneg.mpr hcovered), rfl⟩
    rw [transfer_debited h hcovered hdebit]
    cases hcredit : writtenNumber
        (Doubles.toNumber ((debited accounts fromAddress _ toAddress).balance + value)) with
    | error e => exact debited_iff_fits h hvalue hcovered hdebit hcredit
    | ok m =>
        simp only
        rw [transferred_iff h hcovered hdebit hcredit]
        rcases writtenNumber_eq_ok.mp hcredit with ⟨hle, hnonneg, -⟩
        constructor
        · rintro ⟨k, hpos, rfl⟩
          rw [toNumber_credit toAddress h hcovered hdebit] at hle
          exact .inr (.inr (.inl ⟨⟨k, hpos, rfl⟩, (credit_range h hcovered hdebit).mpr hle⟩))
        · rintro (hless | hgreat | ⟨hpositive, -⟩ | ⟨hneg, hlost, hzero⟩)
          · exact absurd hless (not_lt.mpr hcovered)
          · exact absurd hgreat (not_lt.mpr hroom)
          · exact hpositive
          · -- of an account that has nothing, nothing can be taken off
            rcases h.written fromAddress with ⟨-, before, hlt, hbefore⟩
            have hkept : (accounts fromAddress).balance ≤
                Doubles.toNumber ((accounts fromAddress).balance - value) := by
              rw [hbefore]
              exact Doubles.natCast_le_toNumber (by omega) (by linarith)
            rw [(debited_eq_iff h hdebit).mpr ⟨hkept, hlost⟩, hzero, zero_add, hdouble] at hnonneg
            exact absurd hneg (not_lt.mpr hnonneg)

end Transfer

/-! ## Requests -/

/-- A request that succeeds has made a transfer as it should be, and one that fails has changed nothing. -/
def Atomic (c : Crypto) (accounts : Accounts) (fromAddress toAddress : Option Address)
    (value : Option ℚ) (state : State) : Prop :=
  ∃ after : Accounts,
    (∀ address, Fallible.outcome (State.getAccount address
      (Fallible.final (InnerApi.transfer c fromAddress toAddress value state))) = .ok (after address)) ∧
    match Fallible.outcome (InnerApi.transfer c fromAddress toAddress value state) with
    | .ok _ => ∃ sender ∈ fromAddress, ∃ recipient ∈ toAddress,
        ∃ amount ∈ InnerApi.truthyNumber value, Transferred accounts after sender recipient amount
    | .error _ => after = accounts

section Request

variable {c : Crypto} {contents : Contents} {accounts : Accounts} {state : State}
  {fromAddress toAddress : Option Address} {value : Option ℚ}

/-- A value that the route admits is a double and not zero. -/
theorem toNumber_of_truthy {amount : ℚ} (h : amount ∈ InnerApi.truthyNumber value) :
    amount ≠ 0 ∧ Doubles.toNumber amount = amount := by
  cases value with
  | none => cases h
  | some n =>
      simp only [InnerApi.truthyNumber] at h
      split at h
      · cases h
      · rename_i hne
        cases h
        exact ⟨hne, Doubles.toNumber_toNumber n⟩

/-- A request without two addresses and an amount. -/
theorem transferCode_refused
    (h : ∀ sender ∈ fromAddress, ∀ recipient ∈ toAddress, InnerApi.truthyNumber value = none) :
    (InnerApi.transferCode fromAddress toAddress value).forget.onContents contents =
      .error ⟨"Bad Request"⟩ contents := by
  cases fromAddress with
  | none => rfl
  | some sender =>
      cases toAddress with
      | none => rfl
      | some recipient =>
          have hnone := h sender rfl recipient rfl
          simp only [InnerApi.transferCode, hnone]
          rfl

/-- The accounts of a state with these contents. -/
theorem read_iff (hrep : Represents c state.top contents) :
    (∀ address, Fallible.outcome (State.getAccount address state) = .ok (accounts address)) ↔
      Read contents accounts := by
  refine forall_congr' fun address => ?_
  rw [outcome_getAccount_of_represents hrep]

theorem Read.unique {accounts' : Accounts} (h : Read contents accounts) (h' : Read contents accounts') :
    accounts' = accounts := by
  funext address
  exact Except.ok.inj ((h' address).symm.trans (h address))

/-- A request on a state with these contents and these accounts. -/
theorem Read.atomic_iff (h : Read contents accounts) (hrep : Represents c state.top contents)
    (hc : NoCollision c
      (Fallible.final (InnerApi.transfer c fromAddress toAddress value state)).saved) :
    Atomic c accounts fromAddress toAddress value state ↔
      ∀ sender ∈ fromAddress, ∀ recipient ∈ toAddress, ∀ amount ∈ InnerApi.truthyNumber value,
        Fits accounts sender recipient amount := by
  obtain ⟨hout, hafter⟩ :=
    (InnerApi.matches_transfer (c := c) fromAddress toAddress value).onContents hrep hc
  unfold Atomic
  simp only [read_iff hafter]
  rw [hout]
  by_cases hrefused :
      ∀ sender ∈ fromAddress, ∀ recipient ∈ toAddress, InnerApi.truthyNumber value = none
  · rw [transferCode_refused hrefused]
    refine iff_of_true ⟨accounts, h, rfl⟩ ?_
    intro sender hsender recipient hrecipient amount hamount
    rw [hrefused sender hsender recipient hrecipient] at hamount
    cases hamount
  · push Not at hrefused
    rcases hrefused with ⟨sender, rfl, recipient, rfl, hsome⟩
    obtain ⟨amount, hamount⟩ := Option.ne_none_iff_exists'.mp hsome
    -- from here on the request is the transfer on the table
    obtain ⟨hout', hread⟩ := (onTable_transfer sender recipient hamount).same contents accounts h trivial
    rcases toNumber_of_truthy hamount with ⟨hne, hdouble⟩
    have hends := @ends_transfer_iff _ _ sender recipient _ h hne hdouble
    rw [hout']
    simp only [hamount, Option.mem_some_iff, forall_eq', exists_eq_left']
    have hresult : ∀ after, Read (Fallible.final ((InnerApi.transferCode (some sender) (some recipient)
        value).forget.onContents contents)) after ↔
          after = Fallible.final (transfer sender recipient amount accounts) := by
      intro after
      constructor
      · exact hread.unique
      · rintro rfl
        exact hread
    simp only [hresult, exists_eq_left]
    rw [← hends]
    unfold Fallible.Ends
    cases transfer sender recipient amount accounts with
    | ok _ after => exact Iff.rfl
    | error e after => exact Iff.rfl

end Request

/-- For all accounts, addresses and values: a request that succeeds has made a transfer as it should be and
one that fails has changed nothing, if and only if the value fits, where there is one at all. -/
theorem transfer_iff_fits (c : Crypto) (state : State) (hsound : state.Sound c) (accounts : Accounts)
    (haccounts : ∀ address, Fallible.outcome (State.getAccount address state) = .ok (accounts address))
    (fromAddress toAddress : Option Address) (value : Option ℚ)
    (hc : NoCollision c
      (Fallible.final (InnerApi.transfer c fromAddress toAddress value state)).saved) :
    Atomic c accounts fromAddress toAddress value state ↔
      ∀ sender ∈ fromAddress, ∀ recipient ∈ toAddress, ∀ amount ∈ InnerApi.truthyNumber value,
        Fits accounts sender recipient amount := by
  rcases hsound.represents with ⟨contents, hrep⟩
  exact ((read_iff hrep).mp haccounts).atomic_iff hrep hc

theorem length_sampleAddress (n : UInt8) : (List.replicate 20 n).length = 20 := by simp

/-- Two accounts, `n` is one or two. -/
def sampleAddress (n : UInt8) : Address := ⟨List.replicate 20 n, length_sampleAddress n⟩

theorem read_freshState : Read (fun _ => none) fun _ => Account.default := fun _ => rfl

theorem transfer_iff_fits_fresh :
    Atomic .transparent (fun _ => Account.default) (some (sampleAddress 1)) (some (sampleAddress 2))
        (some 3) Controller.freshState ↔
      ∀ sender ∈ some (sampleAddress 1), ∀ recipient ∈ some (sampleAddress 2),
        ∀ amount ∈ InnerApi.truthyNumber (some 3),
          Fits (fun _ => Account.default) sender recipient amount :=
  transfer_iff_fits .transparent Controller.freshState (ready_sound _ _) _
    ((read_iff (represents_ready _ _)).mpr read_freshState) _ _ _ (by decide +kernel)

/-- A transfer of minus one: the account that pays gets one, and then the other one cannot pay it. -/
theorem not_atomic :
    ¬ ∀ (c : Crypto) (state : State) (_ : state.Sound c) (accounts : Accounts)
      (_ : ∀ address, Fallible.outcome (State.getAccount address state) = .ok (accounts address))
      (fromAddress toAddress : Option Address) (value : Option ℚ)
      (_ : NoCollision c
        (Fallible.final (InnerApi.transfer c fromAddress toAddress value state)).saved),
      Atomic c accounts fromAddress toAddress value state := by
  intro h
  have hrep : Represents .transparent Controller.freshState.top fun _ => none := represents_ready _ _
  have hc : NoCollision .transparent (Fallible.final (InnerApi.transfer .transparent
      (some (sampleAddress 1)) (some (sampleAddress 2)) (some (-1)) Controller.freshState)).saved := by
    decide +kernel
  have hatomic := h .transparent Controller.freshState (ready_sound _ _) _
    ((read_iff hrep).mpr read_freshState) _ _ _ hc
  have hone : Doubles.toNumber 1 = 1 := by decide +kernel
  have hamount : InnerApi.truthyNumber (some (-1)) = some (-1) := by decide +kernel
  have hfits := (read_freshState.atomic_iff hrep hc).mp hatomic _ rfl _ rfl _ hamount
  rcases hfits with hless | hgreat | ⟨⟨k, hpos, hk⟩, -⟩ | ⟨-, hlost, -⟩
  · norm_num [Account.default] at hless
  · norm_num [Account.default, hone] at hgreat
  · have hneg : (0 : ℚ) ≤ -1 := hk ▸ Nat.cast_nonneg k
    norm_num at hneg
  · norm_num [Account.default, hone] at hlost

end Accounts
end EasyFramework
end UniqysKit
