import UniqysKit.EasyFramework.TransactionProofs
import UniqysKit.EventProvider.Consent
import UniqysKit.EventProvider.ParsedTransaction
import UniqysKit.EventProvider.Stakable

/-!
# Deposits and withdrawals

`Depositable.sol`: tokens are burned to be credited on the side chain, and minted for a transaction of
the side chain that is proved to be executed.  It is modelled with what else the contract has that
inherits from it, as `SampleToken.sol` does: the stakes of `Stakable.sol` and the transfers of the
token.  The proofs are checked by a library that is not part of this repository: a parameter here.
-/

namespace UniqysKit
namespace EventProvider

/-- The state of a token that is `Depositable` and `Stakable`. -/
structure Depositable extends Stakable where
  usedTx : Hash → Bool
  genesisHash : Hash

/-- The arguments of `withdraw`. -/
structure Withdrawal where
  transaction : Bytes
  transactionProof : List Hash
  header : Uniqys.BlockHeader
  consensusRound : Nat
  signatures : List Bytes

/-- `MerkleProof.verify`: a proof, a root and a leaf. -/
abbrev MerkleProof := List Hash → Hash → Hash → Bool

/-- A call of a public function of the contract. -/
inductive TokenCall
  | deposit (sender : Caller) (value : Nat)
  | withdraw (sender : Caller) (withdrawal : Withdrawal)
  | other (tx : Stakable.TokenTransaction)

namespace Depositable

/-! ## The functions -/

/-- The body of the loop of `_stringToUint`. -/
def addDigit [SafeMath] (result : Nat) (byte : UInt8) : Result Nat :=
  if byte.toNat ≥ 48 ∧ byte.toNat ≤ 57 then do
    SafeMath.add (← SafeMath.mul result 10) (← SafeMath.sub byte.toNat 48)
  else .error ⟨"Invalid value"⟩

def stringToUint [SafeMath] (bytes : Bytes) : Result Nat := bytes.foldlM addDigit 0

/-- `WITHDRAW_PATH`. -/
def withdrawPath : Bytes := Uniqys.textBytes "/withdraw"

def verifyTransaction (merkleProof : MerkleProof) (proof : List Hash) (root txHash : Hash) :
    Result Unit :=
  if merkleProof proof root txHash then .ok ()
  else .error ⟨"Could not prove transaction existence from proof"⟩

def deposit (erc20 : ERC20) (sender : Address) (value : Nat) (state : Depositable) :
    Result Depositable := do
  return { state with token := ← erc20.burn sender value state.token }

section Definitions

variable [SafeMath] [BytesLib]
variable (c : Crypto) (ecrecover : Ecrecover) (erc20 : ERC20) (merkleProof : MerkleProof)

def parseWithdrawTransaction (sender : Address) (transaction : Bytes) : Result Nat := do
  let parsed ← Uniqys.parseTransaction c ecrecover transaction
  if parsed.signer = sender then
    if Hash.fromData c withdrawPath = Hash.fromData c parsed.path then stringToUint parsed.body
    else .error ⟨"Not withdraw transaction"⟩
  else .error ⟨"Signer and sender mismatch"⟩

def withdraw (sender : Address) (withdrawal : Withdrawal) (state : Depositable) :
    Result Depositable := do
  let txHash := Hash.fromData c withdrawal.transaction
  let value ← parseWithdrawTransaction c ecrecover sender withdrawal.transaction
  if value > 0 then do
    state.validatorSet.verifyBlockHeader ecrecover c withdrawal.header withdrawal.consensusRound
      state.genesisHash withdrawal.signatures
    verifyTransaction merkleProof withdrawal.transactionProof withdrawal.header.appStateHash
      (Hash.fromData c withdrawal.transaction)
    if state.usedTx txHash = false then do
      let token ← erc20.mint sender value state.token
      return { state with token, usedTx := Function.update state.usedTx txHash true }
    else .error ⟨"Transaction already withdrawn"⟩
  else .error ⟨"Invalid transaction"⟩

def call : TokenCall → Depositable → Result Depositable
  | .deposit sender value => deposit erc20 sender value
  | .withdraw sender withdrawal => withdraw c ecrecover erc20 merkleProof sender withdrawal
  | .other tx => fun state => do
      return { state with toStakable := ← Stakable.act erc20 tx state.toStakable }

/-- The state after some calls: one that reverts changes nothing. -/
def callAll (calls : List TokenCall) (state : Depositable) : Depositable :=
  calls.foldl (fun state tx => (call c ecrecover erc20 merkleProof tx state).toOption.getD state) state

/-- The calls that do not revert, each with the state it is executed in. -/
def succeeded : List TokenCall → Depositable → List (Depositable × TokenCall)
  | [], _ => []
  | tx :: txs, state =>
      match call c ecrecover erc20 merkleProof tx state with
      | .ok state' => (state, tx) :: succeeded txs state'
      | .error _ => succeeded txs state

end Definitions

/-- The constructor of `SampleToken`, where `gas` bounds the loops of `_updatePower`. -/
def deploy [SafeMath] (erc20 : ERC20) (gas : Nat) (genesisHash : Hash) (validators : List Address)
    (powers : List Nat) : Result Depositable := do
  let initial : Stakable := ⟨⟨fun _ => 0, 0⟩, .new⟩
  let stakable ← validators.zipIdx.foldlM (fun stakable (validator, i) => do
    let token ← erc20.mint validator 1000 stakable.token
    match powers[i]? with
    | some power => Stakable.stakeDeposit erc20 gas validator power ⟨token, stakable.validatorSet⟩
    | none => .error invalidOpcode) initial
  return ⟨stakable, fun _ => false, genesisHash⟩

variable {c : Crypto} {ecrecover : Ecrecover} {erc20 : ERC20} {merkleProof : MerkleProof}

/-! ## The amount -/

def IsDigit (byte : UInt8) : Prop := 48 ≤ byte.toNat ∧ byte.toNat ≤ 57

instance : DecidablePred IsDigit := fun _ => inferInstanceAs (Decidable (_ ∧ _))

/-- The number that decimal digits stand for, the first one in front. -/
def decimal (bytes : Bytes) : Nat := Nat.ofDigits 10 (bytes.reverse.map fun byte => byte.toNat - 48)

theorem decimal_cons (byte : UInt8) (bytes : Bytes) :
    decimal (byte :: bytes) = (byte.toNat - 48) * 10 ^ bytes.length + decimal bytes := by
  rw [decimal, List.reverse_cons, List.map_append, Nat.ofDigits_append, List.length_map,
    List.length_reverse, decimal]
  simp only [List.map_cons, List.map_nil, Nat.ofDigits_singleton]
  ring

theorem addDigit_eq_ok_iff [SafeMath] {n n' : Nat} {byte : UInt8} :
    addDigit n byte = .ok n' ↔
      IsDigit byte ∧ n' = n * 10 + (byte.toNat - 48) ∧ n' < 2 ^ 256 := by
  unfold addDigit IsDigit
  split
  · rename_i hdigit
    constructor
    · intro h
      rcases Result.bind_eq_ok.mp h with ⟨shifted, hmul, h⟩
      rcases Result.bind_eq_ok.mp h with ⟨digit, hsub, hadd⟩
      rcases SafeMath.mul_eq_ok_iff.mp hmul with ⟨-, rfl⟩
      rcases SafeMath.sub_eq_ok_iff.mp hsub with ⟨-, rfl⟩
      rcases SafeMath.add_eq_ok_iff.mp hadd with ⟨hlt, rfl⟩
      exact ⟨hdigit, rfl, hlt⟩
    · rintro ⟨-, rfl, hlt⟩
      rw [SafeMath.mul_eq_ok_iff.mpr ⟨by omega, rfl⟩, Result.ok_bind,
        SafeMath.sub_eq_ok_iff.mpr ⟨hdigit.1, rfl⟩, Result.ok_bind]
      exact SafeMath.add_eq_ok_iff.mpr ⟨hlt, rfl⟩
  · rename_i hdigit
    refine iff_of_false nofun ?_
    rintro ⟨hdigit', -⟩
    exact hdigit hdigit'

/-- The loop from any number on: what is read so far only gets larger, so it is enough that the result
is within a word. -/
theorem foldlM_addDigit_eq_ok_iff [SafeMath] (bytes : Bytes) {n n' : Nat} (hn : n < 2 ^ 256) :
    bytes.foldlM addDigit n = .ok n' ↔
      (∀ byte ∈ bytes, IsDigit byte) ∧ n' = n * 10 ^ bytes.length + decimal bytes ∧
        n' < 2 ^ 256 := by
  induction bytes generalizing n with
  | nil =>
      rw [List.foldlM_nil]
      constructor
      · intro h
        cases h
        exact ⟨nofun, by simp [decimal], hn⟩
      · rintro ⟨-, rfl, -⟩
        simp [decimal]
  | cons byte bytes ih =>
      rw [List.foldlM_cons, Result.bind_eq_ok, List.forall_mem_cons, decimal_cons, List.length_cons]
      constructor
      · rintro ⟨next, hnext, hrest⟩
        rcases addDigit_eq_ok_iff.mp hnext with ⟨hdigit, rfl, hlt⟩
        rcases (ih hlt).mp hrest with ⟨hall, rfl, hlt'⟩
        refine ⟨⟨hdigit, hall⟩, ?_, hlt'⟩
        ring
      · rintro ⟨⟨hdigit, hall⟩, rfl, hlt⟩
        have hsplit : n * 10 ^ (bytes.length + 1) +
            ((byte.toNat - 48) * 10 ^ bytes.length + decimal bytes) =
            (n * 10 + (byte.toNat - 48)) * 10 ^ bytes.length + decimal bytes := by ring
        have hle : n * 10 + (byte.toNat - 48) ≤
            (n * 10 + (byte.toNat - 48)) * 10 ^ bytes.length :=
          Nat.le_mul_of_pos_right _ (by positivity)
        exact ⟨_, addDigit_eq_ok_iff.mpr ⟨hdigit, rfl, by omega⟩,
          (ih (by omega)).mpr ⟨hall, hsplit, hlt⟩⟩

/-- Digits only, and a number that a word holds. -/
theorem stringToUint_eq_ok_iff [SafeMath] {bytes : Bytes} {n : Nat} :
    stringToUint bytes = .ok n ↔
      (∀ byte ∈ bytes, IsDigit byte) ∧ n = decimal bytes ∧ n < 2 ^ 256 := by
  rw [stringToUint, foldlM_addDigit_eq_ok_iff bytes (by norm_num), Nat.zero_mul, Nat.zero_add]

/-! ## One call -/

section Calls

variable {state state' : Depositable} {sender : Address} {value : Nat} {withdrawal : Withdrawal}

theorem parseWithdrawTransaction_eq_ok_iff [SafeMath] [BytesLib] {transaction : Bytes} :
    parseWithdrawTransaction c ecrecover sender transaction = .ok value ↔
      ∃ parsed, Uniqys.parseTransaction c ecrecover transaction = .ok parsed ∧
        parsed.signer = sender ∧ Hash.fromData c withdrawPath = Hash.fromData c parsed.path ∧
        stringToUint parsed.body = .ok value := by
  unfold parseWithdrawTransaction
  rw [Result.bind_eq_ok]
  refine exists_congr fun parsed => and_congr_right fun _ => ?_
  split
  · rename_i hsigner
    rw [and_iff_right hsigner]
    split
    · rename_i hpath
      rw [and_iff_right hpath]
    · rename_i hpath
      exact iff_of_false nofun fun h => hpath h.1
  · rename_i hsigner
    exact iff_of_false nofun fun h => hsigner h.1

theorem verifyTransaction_eq_ok_iff {proof : List Hash} {root txHash : Hash} :
    verifyTransaction merkleProof proof root txHash = .ok () ↔ merkleProof proof root txHash = true := by
  unfold verifyTransaction
  split
  · rename_i hproof
    exact iff_of_true rfl hproof
  · rename_i hproof
    exact iff_of_false nofun hproof

/-- A withdrawal passes all checks, and does nothing but mint the value and mark the transaction. -/
theorem withdraw_eq_ok_iff [SafeMath] [BytesLib] :
    withdraw c ecrecover erc20 merkleProof sender withdrawal state = .ok state' ↔
      ∃ value token, parseWithdrawTransaction c ecrecover sender withdrawal.transaction = .ok value ∧
        0 < value ∧
        state.validatorSet.verifyBlockHeader ecrecover c withdrawal.header
          withdrawal.consensusRound state.genesisHash withdrawal.signatures = .ok () ∧
        merkleProof withdrawal.transactionProof withdrawal.header.appStateHash
          (Hash.fromData c withdrawal.transaction) = true ∧
        state.usedTx (Hash.fromData c withdrawal.transaction) = false ∧
        erc20.mint sender value state.token = .ok token ∧
        state' = { state with
          token
          usedTx := Function.update state.usedTx (Hash.fromData c withdrawal.transaction) true } := by
  constructor
  · intro h
    unfold withdraw at h
    rcases Result.bind_eq_ok.mp h with ⟨value, hparse, h⟩
    split at h
    · rename_i hpos
      rcases Result.bind_eq_ok.mp h with ⟨u, hheader, h⟩
      rcases Result.bind_eq_ok.mp h with ⟨u', hproof, h⟩
      split at h
      · rename_i hunused
        rcases Result.bind_eq_ok.mp h with ⟨token, hmint, hstate⟩
        cases hstate
        exact ⟨value, token, hparse, hpos, hheader, verifyTransaction_eq_ok_iff.mp hproof, hunused,
          hmint, rfl⟩
      · cases h
    · cases h
  · rintro ⟨value, token, hparse, hpos, hheader, hproof, hunused, hmint, rfl⟩
    rw [withdraw, hparse, Result.ok_bind, if_pos hpos, hheader, Result.ok_bind,
      verifyTransaction_eq_ok_iff.mpr hproof, Result.ok_bind, if_pos hunused, hmint]
    rfl

/-- What a withdrawal that succeeds rests on: the caller has signed a transaction for the path of
withdrawals, with digits for its body, and the validators have signed a header under which it was
executed. -/
structure Justified [BytesLib] (c : Crypto) (ecrecover : Ecrecover) (merkleProof : MerkleProof)
    (state : Depositable) (sender : Address) (withdrawal : Withdrawal) (parsed : Uniqys.Transaction) :
    Prop where
  reads : Uniqys.parseTransaction c ecrecover withdrawal.transaction = .ok parsed
  signer : parsed.signer = sender
  path : Hash.fromData c withdrawPath = Hash.fromData c parsed.path
  digits : ∀ byte ∈ parsed.body, IsDigit byte
  pos : 0 < decimal parsed.body
  lt : decimal parsed.body < 2 ^ 256
  consented : state.validatorSet.totalPower * 2 <
    ((ValidatorSet.signers ecrecover (ValidatorSet.headerDigest c withdrawal.header
      withdrawal.consensusRound state.genesisHash) withdrawal.signatures).map
        state.validatorSet.powers).sum * 3
  proved : merkleProof withdrawal.transactionProof withdrawal.header.appStateHash
    (Hash.fromData c withdrawal.transaction) = true

theorem justified_of_withdraw [SafeMath] [BytesLib]
    (h : withdraw c ecrecover erc20 merkleProof sender withdrawal state = .ok state') :
    ∃ parsed token, Justified c ecrecover merkleProof state sender withdrawal parsed ∧
      state.usedTx (Hash.fromData c withdrawal.transaction) = false ∧
      erc20.mint sender (decimal parsed.body) state.token = .ok token ∧
      state' = { state with
        token
        usedTx := Function.update state.usedTx (Hash.fromData c withdrawal.transaction) true } := by
  rcases withdraw_eq_ok_iff.mp h with
    ⟨value, token, hparse, hpos, hheader, hproof, hunused, hmint, hstate⟩
  rcases parseWithdrawTransaction_eq_ok_iff.mp hparse with ⟨parsed, hparsed, hsigner, hpath, hvalue⟩
  rcases stringToUint_eq_ok_iff.mp hvalue with ⟨hdigits, rfl, hlt⟩
  rcases ValidatorSet.isConsented_eq_true_iff.mp (ValidatorSet.verifyBlockHeader_eq_ok_iff.mp hheader) with
    ⟨-, -, -, hpower⟩
  exact ⟨parsed, token, ⟨hparsed, hsigner, hpath, hdigits, hpos, hlt, hpower, hproof⟩, hunused, hmint,
    hstate⟩

end Calls

/-! ## What is paid once -/

/-- The transaction of the side chain that a call uses. -/
def txHash (c : Crypto) : TokenCall → Option Hash
  | .withdraw _ withdrawal => some (Hash.fromData c withdrawal.transaction)
  | _ => none

/-- The transactions of the side chain that were paid. -/
def paid (c : Crypto) (history : List (Depositable × TokenCall)) : List Hash :=
  history.filterMap fun entry => txHash c entry.2

section Once

variable {state state' : Depositable} {tx : TokenCall}

/-- A call uses a transaction that was not used before, and no other. -/
theorem usedTx_of_call [SafeMath] [BytesLib] (h : call c ecrecover erc20 merkleProof tx state = .ok state') :
    (∀ hash ∈ txHash c tx, state.usedTx hash = false) ∧
      ∀ hash, state'.usedTx hash = true ↔ state.usedTx hash = true ∨ hash ∈ txHash c tx := by
  cases tx with
  | deposit sender value =>
      rcases Result.bind_eq_ok.mp h with ⟨token, -, hstate⟩
      cases hstate
      simp [txHash]
  | withdraw sender withdrawal =>
      rcases withdraw_eq_ok_iff.mp h with ⟨value, token, -, -, -, -, hunused, -, rfl⟩
      refine ⟨?_, ?_⟩
      · intro hash hhash
        cases hhash
        exact hunused
      · intro hash
        simp only [txHash, Option.mem_def, Option.some.injEq]
        by_cases heq : hash = Hash.fromData c withdrawal.transaction
        · subst heq
          simp
        · rw [Function.update_of_ne heq]
          simp [Ne.symm heq]
  | other tx =>
      rcases Result.bind_eq_ok.mp h with ⟨stakable, -, hstate⟩
      cases hstate
      simp [txHash]

/-- Over any calls: each transaction is paid once, none that was used before, and they are used then. -/
theorem usedTx_of_calls [SafeMath] [BytesLib] (txs : List TokenCall) (state : Depositable) :
    (paid c (succeeded c ecrecover erc20 merkleProof txs state)).Nodup ∧
      (∀ hash ∈ paid c (succeeded c ecrecover erc20 merkleProof txs state),
        state.usedTx hash = false) ∧
      ∀ hash, (callAll c ecrecover erc20 merkleProof txs state).usedTx hash = true ↔
        state.usedTx hash = true ∨ hash ∈ paid c (succeeded c ecrecover erc20 merkleProof txs state) := by
  induction txs generalizing state with
  | nil => exact ⟨List.nodup_nil, nofun, fun hash => by simp [callAll, succeeded, paid]⟩
  | cons tx txs ih =>
      rw [callAll, List.foldl_cons, ← callAll, succeeded]
      cases hcall : call c ecrecover erc20 merkleProof tx state with
      | error e => exact ih state
      | ok state' =>
          rcases ih state' with ⟨hnodup, hnew, hused⟩
          rcases usedTx_of_call hcall with ⟨hunused, hmarks⟩
          -- what is paid later was not used after the first call, so not by it
          have hlater : ∀ hash ∈ paid c (succeeded c ecrecover erc20 merkleProof txs state'),
              state.usedTx hash = false ∧ hash ∉ txHash c tx := by
            intro hash hmem
            have hnot : ¬ state'.usedTx hash = true := by
              rw [hnew hash hmem]
              exact Bool.false_ne_true
            rw [hmarks, not_or, Bool.not_eq_true] at hnot
            exact hnot
          simp only [Except.toOption, Option.getD_some, hused, hmarks]
          cases hhash : txHash c tx with
          | none =>
              simp only [paid, List.filterMap_cons, hhash]
              exact ⟨hnodup, fun hash hmem => (hlater hash hmem).1, by simp⟩
          | some first =>
              rw [hhash] at hunused hlater
              simp only [paid, List.filterMap_cons, hhash]
              refine ⟨List.nodup_cons.mpr ⟨?_, hnodup⟩, ?_, ?_⟩
              · intro hmem
                exact (hlater first hmem).2 rfl
              · rw [List.forall_mem_cons]
                exact ⟨hunused first rfl, fun hash hmem => (hlater hash hmem).1⟩
              · intro hash
                rw [List.mem_cons, Option.mem_def, Option.some.injEq, or_assoc, @eq_comm _ first]

/-- The entries of the history, with the calls before and after. -/
theorem mem_succeeded [SafeMath] [BytesLib] {txs : List TokenCall} {entry : Depositable × TokenCall}
    (h : entry ∈ succeeded c ecrecover erc20 merkleProof txs state) :
    ∃ earlier later state', txs = earlier ++ entry.2 :: later ∧
      entry.1 = callAll c ecrecover erc20 merkleProof earlier state ∧
      call c ecrecover erc20 merkleProof entry.2 entry.1 = .ok state' := by
  induction txs generalizing state with
  | nil => cases h
  | cons tx txs ih =>
      rw [succeeded] at h
      cases hcall : call c ecrecover erc20 merkleProof tx state with
      | error e =>
          rw [hcall] at h
          rcases ih h with ⟨earlier, later, state', rfl, hentry, hnext⟩
          refine ⟨tx :: earlier, later, state', rfl, ?_, hnext⟩
          rw [callAll, List.foldl_cons, hcall]
          exact hentry
      | ok next =>
          rw [hcall] at h
          rcases List.mem_cons.mp h with rfl | hmem
          · exact ⟨[], txs, next, rfl, rfl, hcall⟩
          · rcases ih hmem with ⟨earlier, later, state', rfl, hentry, hnext⟩
            refine ⟨tx :: earlier, later, state', rfl, ?_, hnext⟩
            rw [callAll, List.foldl_cons, hcall]
            exact hentry

end Once

/-! ## Sums -/

/-- Amounts that accounts pay or get. -/
abbrev Amounts := List (Address × Nat)

def Amounts.sum (amounts : Amounts) : Nat := (amounts.map Prod.snd).sum

/-- The sum for one account. -/
def Amounts.of (account : Address) (amounts : Amounts) : Nat :=
  Amounts.sum (amounts.filter fun entry => entry.1 = account)

/-- What is burned, and credited on the side chain. -/
def deposits : TokenCall → Amounts
  | .deposit sender value => [(sender, value)]
  | _ => []

/-- What is minted for transactions of the side chain. -/
def withdrawals [SafeMath] [BytesLib] (c : Crypto) (ecrecover : Ecrecover) : TokenCall → Amounts
  | .withdraw sender withdrawal =>
      [(sender, (parseWithdrawTransaction c ecrecover sender withdrawal.transaction).toOption.getD 0)]
  | _ => []

def sent : TokenCall → Amounts
  | .other (.transfer owner _ value) => [(owner, value)]
  | _ => []

def received : TokenCall → Amounts
  | .other (.transfer _ to' value) => [(to', value)]
  | _ => []

/-- The amounts of all calls of a history. -/
def total (amounts : TokenCall → Amounts) (history : List (Depositable × TokenCall)) : Amounts :=
  history.flatMap fun entry => amounts entry.2

/-- The tokens and the power of an account, and of all, change by what comes in and goes out. -/
structure Balanced (ins outs transfersIn transfersOut : Amounts) (state state' : Stakable) : Prop where
  account : ∀ account, state'.token.balanceOf account + state'.validatorSet.powers account +
      outs.of account + transfersOut.of account =
    state.token.balanceOf account + state.validatorSet.powers account +
      ins.of account + transfersIn.of account
  total : state'.token.totalSupply + state'.validatorSet.totalPower + outs.sum =
    state.token.totalSupply + state.validatorSet.totalPower + ins.sum

namespace Amounts

variable {amounts amounts' : Amounts} {account other : Address} {value : Nat}

@[simp] theorem sum_nil : sum [] = 0 := rfl

@[simp] theorem of_nil : of account [] = 0 := rfl

@[simp] theorem sum_singleton : sum [(account, value)] = value := rfl

@[simp] theorem sum_append : sum (amounts ++ amounts') = amounts.sum + amounts'.sum := by
  simp [sum]

@[simp] theorem of_append : of account (amounts ++ amounts') = amounts.of account + amounts'.of account := by
  simp [of]

theorem of_singleton : of account [(other, value)] = if other = account then value else 0 := by
  by_cases heq : other = account
  · simp [of, heq]
  · simp [of, heq]

end Amounts

section Balanced

variable {state state' state'' : Stakable}

theorem Balanced.refl : Balanced [] [] [] [] state state := ⟨fun _ => rfl, rfl⟩

theorem Balanced.append {ins outs transfersIn transfersOut ins' outs' transfersIn' transfersOut' : Amounts}
    (h : Balanced ins outs transfersIn transfersOut state state')
    (h' : Balanced ins' outs' transfersIn' transfersOut' state' state'') :
    Balanced (ins ++ ins') (outs ++ outs') (transfersIn ++ transfersIn')
      (transfersOut ++ transfersOut') state state'' := by
  refine ⟨?_, ?_⟩
  · intro account
    have hfirst := h.account account
    have hsecond := h'.account account
    simp only [Amounts.of_append]
    omega
  · have hfirst := h.total
    have hsecond := h'.total
    simp only [Amounts.sum_append]
    omega

theorem balanced_of_conserves (h : Stakable.Conserves state state') :
    Balanced [] [] [] [] state state' := by
  refine ⟨?_, ?_⟩
  · intro account
    simpa using h.account account
  · simpa using h.total

theorem balanced_of_burn {account : Address} {value : Nat} {token : Token} (hexact : erc20.Exact)
    (h : erc20.burn account value state.token = .ok token) :
    Balanced [] [(account, value)] [] [] state { state with token } := by
  rcases hexact.burn h with ⟨hle, hle', rfl⟩
  refine ⟨?_, ?_⟩
  · intro other
    simp only [Amounts.of_singleton, Amounts.of_nil, Function.update_apply]
    by_cases heq : other = account
    · subst heq
      simp only [if_true]
      omega
    · simp [heq, Ne.symm heq]
  · simp only [Amounts.sum_singleton, Amounts.sum_nil]
    omega

theorem balanced_of_mint {account : Address} {value : Nat} {token : Token} (hexact : erc20.Exact)
    (h : erc20.mint account value state.token = .ok token) :
    Balanced [(account, value)] [] [] [] state { state with token } := by
  obtain rfl := hexact.mint h
  refine ⟨?_, ?_⟩
  · intro other
    simp only [Amounts.of_singleton, Amounts.of_nil, Function.update_apply]
    by_cases heq : other = account
    · subst heq
      simp only [if_true]
      omega
    · simp [heq, Ne.symm heq]
  · simp only [Amounts.sum_singleton, Amounts.sum_nil]
    omega

theorem balanced_of_transfer {owner to' : Address} {value : Nat} {token : Token}
    (hstandard : erc20.Standard) (h : erc20.transfer owner to' value state.token = .ok token) :
    Balanced [] [] [(to', value)] [(owner, value)] state { state with token } := by
  rcases hstandard.transfer h with ⟨hle, hsupply, hbalances⟩
  refine ⟨?_, ?_⟩
  · intro account
    simp only [hbalances, Amounts.of_singleton, Amounts.of_nil]
    by_cases hto : to' = account
    · subst hto
      by_cases howner : owner = to'
      · -- an account sends to itself
        subst howner
        simp only [Function.update_self, if_true]
        omega
      · rw [Function.update_self, Function.update_of_ne (Ne.symm howner), if_neg howner, if_pos rfl]
        omega
    · by_cases howner : owner = account
      · subst howner
        rw [Function.update_of_ne (Ne.symm hto), Function.update_self, if_neg hto, if_pos rfl]
        omega
      · rw [Function.update_of_ne (Ne.symm hto), Function.update_of_ne (Ne.symm howner), if_neg hto,
          if_neg howner]
  · simp only [hsupply]

/-- What a call moves. -/
theorem balanced_of_call [SafeMath] [BytesLib] {state state' : Depositable} {tx : TokenCall}
    (hstandard : erc20.Standard)
    (h : call c ecrecover erc20 merkleProof tx state = .ok state') :
    Balanced (withdrawals c ecrecover tx) (deposits tx) (received tx) (sent tx) state.toStakable
      state'.toStakable := by
  cases tx with
  | deposit sender value =>
      rcases Result.bind_eq_ok.mp h with ⟨token, hburn, hstate⟩
      cases hstate
      exact balanced_of_burn hstandard.toExact hburn
  | withdraw sender withdrawal =>
      rcases withdraw_eq_ok_iff.mp h with ⟨value, token, hparse, -, -, -, -, hmint, rfl⟩
      simp only [withdrawals, hparse, Except.toOption, Option.getD_some]
      exact balanced_of_mint hstandard.toExact hmint
  | other tx =>
      rcases Result.bind_eq_ok.mp h with ⟨stakable, hact, hstate⟩
      cases hstate
      cases tx with
      | stake tx => exact balanced_of_conserves (Stakable.conserves_of_call hstandard.toExact hact)
      | transfer owner to' value =>
          rcases Result.bind_eq_ok.mp hact with ⟨token, htransfer, hstakable⟩
          cases hstakable
          exact balanced_of_transfer hstandard htransfer

theorem balanced_of_calls [SafeMath] [BytesLib] (hstandard : erc20.Standard) (txs : List TokenCall)
    (state : Depositable) :
    let history := succeeded c ecrecover erc20 merkleProof txs state
    Balanced (total (withdrawals c ecrecover) history) (total deposits history)
      (total received history) (total sent history) state.toStakable
      (callAll c ecrecover erc20 merkleProof txs state).toStakable := by
  induction txs generalizing state with
  | nil => exact .refl
  | cons tx txs ih =>
      simp only at ih ⊢
      rw [callAll, List.foldl_cons, ← callAll, succeeded]
      cases hcall : call c ecrecover erc20 merkleProof tx state with
      | error e => exact ih state
      | ok state' => exact (balanced_of_call hstandard hcall).append (ih state')

/-- The tokens that the constructor mints, and takes for power. -/
theorem balanced_of_deploy [SafeMath] {gas : Nat} {genesisHash : Hash} {validators : List Address}
    {powers : List Nat} {state : Depositable} (hexact : erc20.Exact)
    (h : deploy erc20 gas genesisHash validators powers = .ok state) :
    Balanced (validators.map fun validator => (validator, 1000)) [] [] [] ⟨⟨fun _ => 0, 0⟩, .new⟩
        state.toStakable ∧
      state.usedTx = (fun _ => false) ∧ state.genesisHash = genesisHash := by
  rcases Result.bind_eq_ok.mp h with ⟨stakable, hloop, hstate⟩
  cases hstate
  refine ⟨?_, rfl, rfl⟩
  clear h
  -- from any place in the list on
  generalize hinitial : (⟨⟨fun _ => 0, 0⟩, .new⟩ : Stakable) = initial at hloop ⊢
  clear hinitial
  generalize 0 = i at hloop
  induction validators generalizing initial i with
  | nil =>
      cases hloop
      exact .refl
  | cons validator validators ih =>
      rw [List.zipIdx_cons, List.foldlM_cons] at hloop
      rcases Result.bind_eq_ok.mp hloop with ⟨next, hnext, hrest⟩
      rcases Result.bind_eq_ok.mp hnext with ⟨token, hmint, hstake⟩
      have hminted := balanced_of_mint hexact hmint
      split at hstake
      · have hstaked := balanced_of_conserves (Stakable.conserves_of_stakeDeposit hexact hstake)
        exact (hminted.append hstaked).append (ih next (i + 1) hrest)
      · cases hstake

end Balanced

/-! ## The token of the sample -/

theorem genesisHash_of_call [SafeMath] [BytesLib] {state state' : Depositable} {tx : TokenCall}
    (h : call c ecrecover erc20 merkleProof tx state = .ok state') :
    state'.genesisHash = state.genesisHash := by
  cases tx with
  | deposit sender value =>
      rcases Result.bind_eq_ok.mp h with ⟨token, -, hstate⟩
      cases hstate
      rfl
  | withdraw sender withdrawal =>
      rcases withdraw_eq_ok_iff.mp h with ⟨value, token, -, -, -, -, -, -, rfl⟩
      rfl
  | other tx =>
      rcases Result.bind_eq_ok.mp h with ⟨stakable, -, hstate⟩
      cases hstate
      rfl

theorem genesisHash_of_calls [SafeMath] [BytesLib] (txs : List TokenCall) (state : Depositable) :
    (callAll c ecrecover erc20 merkleProof txs state).genesisHash = state.genesisHash := by
  induction txs generalizing state with
  | nil => rfl
  | cons tx txs ih =>
      rw [callAll, List.foldl_cons, ← callAll, ih]
      cases hcall : call c ecrecover erc20 merkleProof tx state with
      | error e => rfl
      | ok state' => exact genesisHash_of_call hcall

/-- Whatever is called, by whom and in what order: a transaction of the side chain is paid once, to who
signed it, the amount it asks for, and only with the signatures of the validators that there are at that
time.  Besides, tokens and power are what the constructor has minted, less the deposits. -/
theorem paid_once [SafeMath] [BytesLib] (c : Crypto) (ecrecover : Ecrecover) (erc20 : ERC20)
    (hstandard : erc20.Standard)
    (merkleProof : MerkleProof) (gas : Nat) (genesisHash : Hash) (validators : List Address)
    (powers : List Nat) (state : Depositable)
    (hdeploy : deploy erc20 gas genesisHash validators powers = .ok state) (txs : List TokenCall) :
    let history := succeeded c ecrecover erc20 merkleProof txs state
    let final := callAll c ecrecover erc20 merkleProof txs state
    (paid c history).Nodup ∧
      (∀ hash, final.usedTx hash = true ↔ hash ∈ paid c history) ∧
      (∀ before (sender : Caller) withdrawal, (before, .withdraw sender withdrawal) ∈ history →
        before.genesisHash = genesisHash ∧
          ∃ parsed, Justified c ecrecover merkleProof before sender withdrawal parsed ∧
            withdrawals c ecrecover (.withdraw sender withdrawal) =
              [(parsed.signer, decimal parsed.body)]) ∧
      Balanced ((validators.map fun validator => (validator, 1000)) ++
          total (withdrawals c ecrecover) history) (total deposits history) (total received history)
        (total sent history) ⟨⟨fun _ => 0, 0⟩, .new⟩ final.toStakable := by
  rcases balanced_of_deploy hstandard.toExact hdeploy with ⟨hdeployed, hunused, hgenesis⟩
  rcases @usedTx_of_calls c ecrecover erc20 merkleProof _ _ txs state with ⟨hnodup, -, hused⟩
  refine ⟨hnodup, ?_, ?_, hdeployed.append (balanced_of_calls hstandard txs state)⟩
  · intro hash
    rw [hused, hunused]
    simp
  · intro before sender withdrawal hmem
    rcases mem_succeeded hmem with ⟨earlier, later, state', -, hbefore, hcall⟩
    rcases justified_of_withdraw hcall with ⟨parsed, token, hjustified, -⟩
    refine ⟨?_, parsed, hjustified, ?_⟩
    · obtain rfl : before = _ := hbefore
      rw [genesisHash_of_calls, hgenesis]
    have hvalue : parseWithdrawTransaction c ecrecover sender withdrawal.transaction =
        .ok (decimal parsed.body) :=
      parseWithdrawTransaction_eq_ok_iff.mpr ⟨parsed, hjustified.reads, hjustified.signer,
        hjustified.path, stringToUint_eq_ok_iff.mpr ⟨hjustified.digits, rfl, hjustified.lt⟩⟩
    rw [withdrawals, hvalue, hjustified.signer]
    rfl

/-! ### A withdrawal of five tokens -/

def sampleRequest : EasyFramework.Transaction := ⟨1, ⟨"POST", "/withdraw", [], Uniqys.textBytes "5"⟩⟩

def sampleSigned : EasyFramework.SignedTransaction where
  signature := (Consensus.sampleKey 1).sign .transparent
    (Hash.fromData .transparent (sampleRequest.serialize.toOption.getD []))
  transaction := sampleRequest
  signer := (Consensus.sampleKey 1).address .transparent

def sampleCore : UniqysKit.Transaction where
  type := TransactionType.normal.toNat
  data := sampleSigned.serialize.toOption.getD []
  type_lt := Transaction.zero_lt
  data_lt := by decide +kernel

/-- The node has executed it as the only transaction of a block. -/
def sampleMeta : EasyFramework.MetaState :=
  { (EasyFramework.State.new .transparent).metaState with
    appRoot := fun _ => some Hash.zero
    validTransactionHashes := fun _ => [sampleCore.hash .transparent] }

def sampleNode : EasyFramework.State :=
  { EasyFramework.State.new .transparent with metaState := sampleMeta }

def sampleAppHeader : BlockHeader :=
  { ValidatorSet.sampleHeader with
    appStateHash := EasyFramework.State.getMerkleRoot .transparent Hash.zero
      [sampleCore.hash .transparent] }

def sampleAppSignatures : List Bytes :=
  [1, 2, 3].map fun b => ((Consensus.sampleKey b).sign .transparent (ValidatorSet.headerDigest
    .transparent (ValidatorSet.contractHeader sampleAppHeader) 1 Hash.zero)).buffer

def sampleDepositable : Depositable :=
  ⟨⟨Stakable.sampleToken, ValidatorSet.sampleTable⟩, fun _ => false, Hash.zero⟩

def sampleCaller : Caller := ⟨sampleSigned.signer, by decide +kernel⟩

/-- The withdrawal, the same again and a deposit of two of the tokens. -/
def sampleCalls : List TokenCall :=
  let withdrawal := ⟨sampleCore.serialize, [Hash.zero], ValidatorSet.contractHeader sampleAppHeader, 1,
    sampleAppSignatures⟩
  [.withdraw sampleCaller withdrawal, .withdraw sampleCaller withdrawal, .deposit sampleCaller 2]

def sampleValidators : List Address := [1, 2, 3].map fun b => (Consensus.sampleKey b).address .transparent

theorem paid_once_sample :
    ∃ state, deploy ERC20.zeppelin 9 Hash.zero sampleValidators [10, 10, 10] = .ok state ∧
      (paid .transparent (succeeded .transparent (ecrecoverOf .transparent) ERC20.zeppelin
        (MerkleTree.verify .transparent) sampleCalls state)).Nodup := by
  have hdeploys : (deploy ERC20.zeppelin 9 Hash.zero sampleValidators [10, 10, 10]).isOk = true := by
    decide +kernel
  cases hdeploy : deploy ERC20.zeppelin 9 Hash.zero sampleValidators [10, 10, 10] with
  | error e =>
      rw [hdeploy] at hdeploys
      cases hdeploys
  | ok state =>
      exact ⟨state, rfl, (paid_once .transparent (ecrecoverOf .transparent) ERC20.zeppelin
        ERC20.zeppelin_standard (MerkleTree.verify .transparent) 9 Hash.zero sampleValidators
        [10, 10, 10] state hdeploy sampleCalls).1⟩

/-- Of the three calls the second one reverts. -/
example : ((succeeded .transparent (ecrecoverOf .transparent) ERC20.zeppelin
    (MerkleTree.verify .transparent) sampleCalls sampleDepositable).length,
    (callAll .transparent (ecrecoverOf .transparent) ERC20.zeppelin (MerkleTree.verify .transparent)
      sampleCalls sampleDepositable).token.balanceOf sampleCaller) = (2, 3) := by
  decide +kernel

/-! ## From the node to the contract -/

section Node

variable {tx : EasyFramework.SignedTransaction} {coreTx : UniqysKit.Transaction}

theorem textBytes_inj {text text' : String} (h : Uniqys.textBytes text = Uniqys.textBytes text') :
    text = text' := by
  rw [← EasyFramework.Utf8.toString_toUTF8 text, ← EasyFramework.Utf8.toString_toUTF8 text']
  exact congrArg EasyFramework.Utf8.toString h

end Node

/-- For a transaction that the node has listed as valid, with the proof the node gives: the withdrawal
succeeds exactly if the caller has signed it, it asks for withdrawing a positive number, the header is
signed, it is not behind the last leaf whose proofs verify, it is not paid yet and the tokens can be
minted. -/
theorem withdraws_iff [SafeMath] [BytesLib] (c : Crypto) (ecrecover : Ecrecover) (hagrees : Agrees c ecrecover)
    (erc20 : ERC20) (merkleProof : MerkleProof)
    (hmerkle : ∀ proof root leaf, merkleProof proof root leaf = MerkleTree.verify c proof root leaf)
    (tx : EasyFramework.SignedTransaction)
    (hnew : EasyFramework.SignedTransaction.new c tx.signature tx.transaction = .ok tx)
    (coreTx : UniqysKit.Transaction) (hdata : tx.serialize = .ok coreTx.data)
    (hsize : coreTx.serialize.length < 2 ^ 32) (node : EasyFramework.State) (height : Nat)
    (hnodup : (node.merkleItems height).Nodup)
    (hmem : coreTx.hash c ∈ node.metaState.validTransactionHashes height) (header : BlockHeader)
    (happState : header.appStateHash = EasyFramework.State.getMerkleRoot c
      ((node.metaState.appRoot height).getD Hash.zero)
      (node.metaState.validTransactionHashes height)) :
    ∃ path, node.getMerkleProof c height (coreTx.hash c) = .ok path ∧
      (CollisionFree c (MerkleTree.hashed c (node.merkleItems height) ++
          MerkleTree.climbed c (coreTx.hash c) path ++
          [withdrawPath, Uniqys.textBytes tx.transaction.request.path]) →
        ∀ (sender : Caller) (round : Nat) (signatures : List Bytes) (state state' : Depositable),
          withdraw c ecrecover erc20 merkleProof sender
              ⟨coreTx.serialize, path, ValidatorSet.contractHeader header, round, signatures⟩ state =
              .ok state' ↔
            tx.signer = sender ∧ tx.transaction.request.path = "/withdraw" ∧
            (∀ byte ∈ tx.transaction.request.body, IsDigit byte) ∧
            0 < decimal tx.transaction.request.body ∧
            decimal tx.transaction.request.body < 2 ^ 256 ∧
            state.validatorSet.verifyBlockHeader ecrecover c (ValidatorSet.contractHeader header)
              round state.genesisHash signatures = .ok () ∧
            (node.merkleItems height).idxOf (coreTx.hash c) ≤
              MerkleTree.deepest (node.merkleItems height).length ∧
            state.usedTx (coreTx.hash c) = false ∧
            ∃ token, erc20.mint sender (decimal tx.transaction.request.body) state.token =
                .ok token ∧
              state' = { state with
                token, usedTx := Function.update state.usedTx (coreTx.hash c) true }) := by
  have hparsed := Uniqys.parseTransaction_signed hagrees hnew hdata hsize
  rcases MerkleTree.proof_spec c (List.mem_cons_of_mem _ hmem) hnodup with
    ⟨path, hpath, hcomplete, hsound⟩
  refine ⟨path, hpath, ?_⟩
  intro hfree sender round signatures state state'
  have hproof : merkleProof path header.appStateHash (coreTx.hash c) = true ↔
      (node.merkleItems height).idxOf (coreTx.hash c) ≤
        MerkleTree.deepest (node.merkleItems height).length := by
    rw [hmerkle, happState]
    exact ⟨hsound (hfree.mono (List.subset_append_left _ _)), hcomplete⟩
  have hwithdrawPath : Hash.fromData c withdrawPath =
      Hash.fromData c (Uniqys.textBytes tx.transaction.request.path) ↔
        tx.transaction.request.path = "/withdraw" := by
    constructor
    · intro hhash
      exact (textBytes_inj (hfree withdrawPath (by simp) _ (by simp) hhash)).symm
    · intro heq
      rw [heq]
      rfl
  have hvalue : ∀ value,
      parseWithdrawTransaction c ecrecover sender coreTx.serialize = .ok value ↔
        tx.signer = sender ∧ tx.transaction.request.path = "/withdraw" ∧
          (∀ byte ∈ tx.transaction.request.body, IsDigit byte) ∧
          value = decimal tx.transaction.request.body ∧ value < 2 ^ 256 := by
    intro value
    rw [parseWithdrawTransaction_eq_ok_iff, ← stringToUint_eq_ok_iff, ← hwithdrawPath]
    constructor
    · rintro ⟨parsed, hread, hsigner, hpath', hbody⟩
      rw [hparsed] at hread
      cases hread
      exact ⟨hsigner, hpath', hbody⟩
    · rintro ⟨hsigner, hpath', hbody⟩
      exact ⟨_, hparsed, hsigner, hpath', hbody⟩
  rw [withdraw_eq_ok_iff]
  simp only [hvalue]
  constructor
  · rintro ⟨value, token, ⟨hsigner, hrequest, hdigits, rfl, hlt⟩, hpos, hheader, hverify, hunused,
      hmint, hstate⟩
    exact ⟨hsigner, hrequest, hdigits, hpos, hlt, hheader, hproof.mp hverify, hunused, token, hmint,
      hstate⟩
  · rintro ⟨hsigner, hrequest, hdigits, hpos, hlt, hheader, hindex, hunused, token, hmint, hstate⟩
    exact ⟨_, token, ⟨hsigner, hrequest, hdigits, rfl, hlt⟩, hpos, hheader, hproof.mpr hindex, hunused,
      hmint, hstate⟩

theorem withdraws_iff_sample :
    ∃ path state', sampleNode.getMerkleProof .transparent 1 (sampleCore.hash .transparent) = .ok path ∧
      withdraw .transparent (ecrecoverOf .transparent) ERC20.zeppelin (MerkleTree.verify .transparent)
        sampleCaller ⟨sampleCore.serialize, path, ValidatorSet.contractHeader sampleAppHeader, 1,
          sampleAppSignatures⟩ sampleDepositable = .ok state' := by
  rcases withdraws_iff .transparent (ecrecoverOf .transparent) (agrees_ecrecoverOf .transparent)
    ERC20.zeppelin (MerkleTree.verify .transparent) (fun _ _ _ => rfl) sampleSigned
    (by decide +kernel) sampleCore (by decide +kernel) (by decide +kernel) sampleNode 1
    (by decide +kernel) (by decide +kernel) sampleAppHeader rfl with ⟨path, hpath, hiff⟩
  have hproof : sampleNode.getMerkleProof .transparent 1 (sampleCore.hash .transparent) =
      .ok [Hash.zero] := by decide +kernel
  cases hproof.symm.trans hpath
  have hmints : ∃ token, ERC20.zeppelin.mint sampleCaller
      (decimal sampleSigned.transaction.request.body) sampleDepositable.token = .ok token :=
    ERC20.zeppelin_standard.mints sampleCaller.property (by decide +kernel) (by decide +kernel)
  rcases hmints with ⟨token, hmint⟩
  exact ⟨[Hash.zero], _, hproof, (hiff (by decide +kernel) sampleCaller 1 sampleAppSignatures
    sampleDepositable _).mpr ⟨by decide +kernel, by decide +kernel, by decide +kernel,
      by decide +kernel, by decide +kernel, by decide +kernel, by decide +kernel, by decide +kernel,
      token, hmint, rfl⟩⟩

end Depositable
end EventProvider
end UniqysKit
