import UniqysKit.Blockchain.Block
import UniqysKit.Library.Doubles
import UniqysKit.MerklePatriciaTrie.Rollback

/-!
# The state of the easy framework

`state.ts` and `account.ts` of `packages/easy-framework`.  The state is spread over three stores:
the trie `top`, which holds the accounts and the application's keys and can be rolled back; the meta
store, which holds among others the next validator set; and the results of transactions.

Numbers that a client sends are JSON numbers, rationals here, of which the nearest double is taken.
There is no greatest double here: what is out of the range of 48 bits is not written, be it finite or
not.  What is written of a number in the range is its integer part.
-/

namespace UniqysKit
namespace EasyFramework

open Library

/-! ## Accounts -/

/-- Writing a JSON number with `UInt64.serialize`: the number that reading gives back. -/
def writtenNumber (n : ℚ) : Result Nat :=
  if n > 2 ^ 48 - 1 then .error ⟨"The number is out of 48bit range"⟩
  else if n < 0 then .error .outOfRange
  else .ok ⌊n⌋.toNat

theorem writtenNumber_eq_ok {q : ℚ} {n : Nat} :
    writtenNumber q = .ok n ↔ q ≤ 2 ^ 48 - 1 ∧ 0 ≤ q ∧ n = ⌊q⌋.toNat := by
  unfold writtenNumber
  split
  · rename_i hgreat
    exact iff_of_false nofun fun h => absurd h.1 (not_le.mpr hgreat)
  · rename_i hgreat
    split
    · rename_i hneg
      exact iff_of_false nofun fun h => absurd h.2.1 (not_le.mpr hneg)
    · rename_i hneg
      rw [Except.ok.injEq, eq_comm, and_iff_right (not_lt.mp hgreat), and_iff_right (not_lt.mp hneg)]

theorem writtenNumber_natCast {n : Nat} (h : n < 2 ^ 48) : writtenNumber (n : ℚ) = .ok n := by
  refine writtenNumber_eq_ok.mpr ⟨?_, Nat.cast_nonneg n, ?_⟩
  · have hle : (n : ℚ) ≤ ((2 ^ 48 - 1 : Nat) : ℚ) := Nat.cast_le.mpr (by omega)
    norm_num at hle ⊢
    exact hle
  · rw [Int.floor_natCast, Int.toNat_natCast]

structure Account where
  nonce : Nat
  balance : ℚ
  deriving DecidableEq

namespace Account

protected def default : Account := ⟨0, 0⟩

def serialize : Serializer Account := fun account => do
  let nonce ← UInt64.serialize account.nonce
  let balance ← UInt64.serialize (← writtenNumber account.balance)
  return nonce ++ balance

def deserialize : Deserializer Account := fun reader => do
  let (nonce, rest) ← UInt64.deserialize reader
  let (balance, rest) ← UInt64.deserialize rest
  return (⟨nonce, balance⟩, rest)

def incrementNonce (account : Account) : Account := ⟨account.nonce + 1, account.balance⟩

def setBalance (account : Account) (balance : ℚ) : Account := ⟨account.nonce, balance⟩

def decreaseBalance (account : Account) (value : ℚ) : Result Account :=
  if account.balance < value then .error ⟨"insufficient balance"⟩
  else .ok ⟨account.nonce, Doubles.toNumber (account.balance - value)⟩

def increaseBalance (account : Account) (value : ℚ) : Account :=
  ⟨account.nonce, Doubles.toNumber (account.balance + value)⟩

end Account

/-! ## Powers -/

/-- What a client can send for a power: any JSON value, or none.  Of a text and of an array or an object
there is the number it stands for, `none` for `NaN`. -/
inductive PowerValue
  | undefined
  | null
  | boolean (b : Bool)
  | number (n : ℚ)
  | emptyText
  | text (value : Option ℚ)
  | object (value : Option ℚ)
  deriving DecidableEq

namespace PowerValue

/-- `+v`, with `none` for `NaN`. -/
def toNumber : PowerValue → Option ℚ
  | undefined => none
  | null => some 0
  | boolean b => some (if b then 1 else 0)
  | number n => some (Doubles.toNumber n)
  | emptyText => some 0
  | text value => value.map Doubles.toNumber
  | object value => value.map Doubles.toNumber

/-- What `sum += v` adds to a number, `none` where the sum becomes a text or `NaN`, for good. -/
def addend : PowerValue → Option ℚ
  | null => some 0
  | boolean b => some (if b then 1 else 0)
  | number n => some (Doubles.toNumber n)
  | undefined | emptyText | text _ | object _ => none

def isFalsy : PowerValue → Bool
  | undefined | null | emptyText => true
  | boolean b => !b
  | number n => Doubles.toNumber n = 0
  | text _ | object _ => false

theorem isFalsy_iff {power : PowerValue} {n : ℚ} (h : power.addend = some n) :
    power.isFalsy = true ↔ n = 0 := by
  cases power with
  | null =>
      cases h
      decide
  | boolean b =>
      cases h
      cases b <;> decide
  | number m =>
      cases h
      exact decide_eq_true_iff
  | undefined => cases h
  | emptyText => cases h
  | text value => cases h
  | object value => cases h

/-- What is written of a power: the bytes of `NaN` are zero. -/
def written (power : PowerValue) : Result Nat :=
  match power.toNumber with
  | some n => writtenNumber n
  | none => .ok 0

end PowerValue

/-! ## Meta data and results -/

/-- The values of the meta store, with the defaults of its getters. -/
structure MetaState where
  height : Nat
  latestBlockTimestamp : Nat
  latestEventTimestamp : Nat
  eventNonce : Nat
  eventTransactionRoot : Option Hash
  nextValidatorSet : ValidatorSet
  appRoot : Nat → Option Hash
  validTransactionHashes : Nat → List Hash

/-- `String.serialize`: the length and the bytes of the text in UTF-8. -/
def serializeString : Serializer String := fun text => SizedBuffer.serialize text.toUTF8.toList

structure HttpResponse where
  status : Nat
  message : String
  headers : List (String × String)
  body : Bytes
  deriving DecidableEq

namespace HttpResponse

def serialize : Serializer HttpResponse := fun response => do
  let status ← UInt32.serialize response.status
  let message ← serializeString response.message
  let headers ← List.serialize (fun (key, value) => do
    return (← serializeString key) ++ (← serializeString value)) response.headers
  let body ← SizedBuffer.serialize response.body
  return status ++ message ++ headers ++ body

end HttpResponse

structure TransactionResult where
  height : Nat
  response : HttpResponse
  deriving DecidableEq

namespace TransactionResult

def serialize : Serializer TransactionResult := fun result => do
  return (← UInt64.serialize result.height) ++ (← HttpResponse.serialize result.response)

end TransactionResult

/-! ## The state -/

structure State where
  metaState : MetaState
  result : Bytes → Option Bytes
  top : MerklePatriciaTrie

namespace State

variable (c : Crypto)

/-- A state over stores that nothing was written to. -/
def new : State where
  metaState :=
    { height := 0
      latestBlockTimestamp := 0
      latestEventTimestamp := 0
      eventNonce := 0
      eventTransactionRoot := none
      nextValidatorSet := ⟨[]⟩
      appRoot := fun _ => none
      validTransactionHashes := fun _ => [] }
  result := fun _ => none
  top := MerklePatriciaTrie.new c

def onTop {α : Type} (action : Action MerklePatriciaTrie α) : Action State α := fun state =>
  match action state.top with
  | .ok a top => .ok a { state with top }
  | .error e top => .error e { state with top }

/-- A buffer has a bounded length, so longer ones cannot be put together. -/
def content (key value : Bytes) : Result Content :=
  if h : key.length < 2 ^ 31 ∧ value.length < 2 ^ 31 then
    .ok ⟨key, value, Content.key_lt_of_checked h, Content.value_lt_of_checked h⟩
  else .error .outOfRange

/-- `getAccount` on what the trie returned. -/
def accountOf : Option Bytes → Result Account
  | some v => do
      let (account, _) ← Account.deserialize v
      return account
  | none => .ok Account.default

def getAccount (address : Address) : Action State Account := do
  Action.fromResult (accountOf (← onTop (MerklePatriciaTrie.get address.buffer)))

def setAccount (address : Address) (account : Account) : Action State Unit := do
  let value ← Action.fromResult account.serialize
  let content ← Action.fromResult (content address.buffer value)
  onTop (MerklePatriciaTrie.set c content)

/-! ### `app`: the part of the trie below the zero address -/

/-- `Namespace.fullKey` of `app`. -/
def appKey (key : Bytes) : Bytes := Address.zero.buffer ++ key

def appGet (key : Bytes) : Action State (Option Bytes) := onTop (MerklePatriciaTrie.get (appKey key))

def appSet (key value : Bytes) : Action State Unit := do
  let content ← Action.fromResult (content (appKey key) value)
  onTop (MerklePatriciaTrie.set c content)

def appDelete (key : Bytes) : Action State Unit := onTop (MerklePatriciaTrie.delete c (appKey key))

def appClear : Action State Unit := onTop (MerklePatriciaTrie.clear c (some Address.zero.buffer))

/-! ### Meta data and results -/

def modifyMeta (f : MetaState → MetaState) : Action State Unit :=
  modify fun state => { state with metaState := f state.metaState }

def incrementEventNonce : Action State Unit := do
  let nonce := (← get).metaState.eventNonce
  let _ ← Action.fromResult (UInt64.serialize (nonce + 1))
  modifyMeta fun metaState => { metaState with eventNonce := nonce + 1 }

/-- Writing a validator set with the powers as the client sent them: the set that reading gives
back. -/
def writtenValidatorSet (validators : List (Address × PowerValue)) : Result ValidatorSet := do
  let _ ← UInt32.serialize validators.length
  let written ← validators.mapM fun (address, power) => do
    return (⟨address, ← power.written⟩ : Validator)
  return ⟨written⟩

def setNextValidatorSet (validators : List (Address × PowerValue)) : Action State Unit := do
  let nextValidatorSet ← Action.fromResult (writtenValidatorSet validators)
  modifyMeta fun metaState => { metaState with nextValidatorSet }

def setResult (tx : Hash) (txResult : TransactionResult) : Action State Unit := do
  let bytes ← Action.fromResult txResult.serialize
  modify fun state => { state with result := Function.update state.result tx.buffer (some bytes) }

/-- `State.ready` on an empty store. -/
def ready (timestamp : Nat) (initialValidatorSet : ValidatorSet) : Action State Unit := do
  onTop (MerklePatriciaTrie.ready c)
  let root := (← get).top.rootHash
  modifyMeta fun metaState =>
    { metaState with
      latestBlockTimestamp :=
        if metaState.latestBlockTimestamp = 0 then timestamp else metaState.latestBlockTimestamp
      latestEventTimestamp :=
        if metaState.latestEventTimestamp = 0 then timestamp else metaState.latestEventTimestamp
      nextValidatorSet :=
        if metaState.nextValidatorSet.validators.length = 0 then initialValidatorSet
        else metaState.nextValidatorSet
      appRoot := Function.update metaState.appRoot metaState.height
        ((metaState.appRoot metaState.height).or (some root)) }

def newHeight (blockTimestamp : Nat) (validTxHashes : List Hash) (eventExists : Bool)
    (eventTxRoot : Hash) : Action State Unit := do
  let height := (← get).metaState.height + 1
  let _ ← Action.fromResult (UInt64.serialize height)
  modifyMeta fun metaState => { metaState with height }
  let root := (← get).top.rootHash
  modifyMeta fun metaState =>
    { metaState with
      appRoot := Function.update metaState.appRoot height (some root)
      validTransactionHashes :=
        Function.update metaState.validTransactionHashes height validTxHashes
      latestEventTimestamp :=
        if eventExists then metaState.latestBlockTimestamp else metaState.latestEventTimestamp
      latestBlockTimestamp := blockTimestamp
      eventTransactionRoot := some eventTxRoot }

end State

end EasyFramework
end UniqysKit
