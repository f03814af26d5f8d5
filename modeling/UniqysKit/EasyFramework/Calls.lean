import UniqysKit.EasyFramework.Numbers
import UniqysKit.EasyFramework.State

/-!
# What an application can call

While the application handles a transaction it can talk to the memcached-compatible server
(`memcached-implementation.ts`) and to the inner API (`api.ts`).  Both report an error to the
application and go on serving, so a call never throws into the controller: what it changed before
the error stays changed.
-/

namespace UniqysKit
namespace EasyFramework

open Library

/-! ## Numbers as text -/

/-- The UTF-8 forms of the white space that `parseInt` skips. -/
def whitespace : List Bytes :=
  [[9], [10], [11], [12], [13], [32], [194, 160], [225, 154, 128], [226, 128, 128], [226, 128, 129],
    [226, 128, 130], [226, 128, 131], [226, 128, 132], [226, 128, 133], [226, 128, 134],
    [226, 128, 135], [226, 128, 136], [226, 128, 137], [226, 128, 138], [226, 128, 168],
    [226, 128, 169], [226, 128, 175], [226, 129, 159], [227, 128, 128], [239, 187, 191]]

/-- The text without leading white space; a step takes at least one of the `bound` bytes. -/
def skipWhitespace : Nat → Bytes → Bytes
  | 0, text => text
  | bound + 1, text =>
      match whitespace.find? fun space => space.isPrefixOf text with
      | some space => skipWhitespace bound (text.drop space.length)
      | none => text

/-- The digits at the start of the text, if there are any. -/
def parseDigits (text : Bytes) : Option Int :=
  let digits := text.takeWhile fun byte => 48 ≤ byte ∧ byte ≤ 57
  if digits = [] then none
  else some (digits.foldl (fun n byte => n * 10 + (byte.toNat - 48 : Nat)) 0)

/-- `parseInt(text, 10)`. -/
def parseInt (text : Bytes) : Number :=
  let exact := match skipWhitespace text.length text with
    | 43 :: rest => parseDigits rest
    | 45 :: rest => (parseDigits rest).map fun n => -n
    | rest => parseDigits rest
  (exact.map Number.nearest).getD .nan

/-- The bytes of `toString(10)`. -/
def numberToText (n : Number) : Bytes := n.toText.map fun char => UInt8.ofNat char.toNat

/-! ## The memcached-compatible server -/

inductive OperationMode
  | readWrite
  | readOnly
  deriving DecidableEq, Repr

/-- The configuration of `EasyMemcached`; its store is `app`. -/
structure EasyMemcached where
  useCas : Bool
  mode : OperationMode
  deriving DecidableEq

structure Item where
  flags : Int
  casUniq : Nat
  data : Bytes
  deriving DecidableEq

namespace Item

def serialize (useCas : Bool) : Serializer Item := fun item => do
  let cas ← if useCas then UInt64.serialize item.casUniq else .ok []
  let flags ← if item.flags < 0 then .error .outOfRange else UInt32.serialize item.flags.toNat
  return cas ++ flags ++ item.data

def deserialize (useCas : Bool) (value : Bytes) : Result Item := do
  let (casUniq, rest) ← if useCas then UInt64.deserialize value else .ok (0, value)
  let (flags, rest) ← UInt32.deserialize rest
  return ⟨flags, casUniq, rest⟩

end Item

namespace EasyMemcached

open State

variable (c : Crypto) (memcached : EasyMemcached)

def checkWritable : Action State Unit := do
  if memcached.mode = .readOnly then throw ⟨"current mode is read only"⟩

def getItem (key : Bytes) : Action State (Option Item) := do
  match ← appGet key with
  | some v => do return some (← Action.fromResult (Item.deserialize memcached.useCas v))
  | none => return none

def setItem (key : Bytes) (item : Item) : Action State Unit := do
  appSet c key (← Action.fromResult (item.serialize memcached.useCas))

def set (key : Bytes) (flags : Int) (data : Bytes) : Action State Unit := do
  memcached.checkWritable
  let casUniq ←
    if memcached.useCas then do
      let item ← memcached.getItem key
      pure ((item.map Item.casUniq).getD 0)
    else pure 0
  memcached.setItem c key ⟨flags, casUniq + 1, data⟩

/-- What `gets` yields, and the error that ends it, if one does. `get` does the same. -/
def gets : List Bytes → Action State (List (Bytes × Item) × Option Error)
  | [] => return ([], none)
  | key :: keys => do
      match ← appGet key with
      | none => gets keys
      | some v =>
          match Item.deserialize memcached.useCas v with
          | .error e => return ([], some e)
          | .ok item => do
              let (items, failure) ← gets keys
              return ((key, item) :: items, failure)

/-- `getAndAct`, for actions that write an item or leave things as they are. -/
def getAndAct (key : Bytes) (action : Option Item → Option Item) : Action State Unit := do
  memcached.checkWritable
  match action (← memcached.getItem key) with
  | some item => memcached.setItem c key item
  | none => return

def add (key : Bytes) (flags : Int) (data : Bytes) : Action State Unit :=
  memcached.getAndAct c key fun
    | none => some ⟨flags, 1, data⟩
    | some _ => none

def replace (key : Bytes) (flags : Int) (data : Bytes) : Action State Unit :=
  memcached.getAndAct c key (Option.map fun item => ⟨flags, item.casUniq + 1, data⟩)

def append (key data : Bytes) : Action State Unit :=
  memcached.getAndAct c key (Option.map fun item =>
    ⟨item.flags, item.casUniq + 1, item.data ++ data⟩)

def prepend (key data : Bytes) : Action State Unit :=
  memcached.getAndAct c key (Option.map fun item =>
    ⟨item.flags, item.casUniq + 1, data ++ item.data⟩)

def cas (key : Bytes) (flags casUniq : Int) (data : Bytes) : Action State Unit :=
  memcached.getAndAct c key fun
    | some item => if item.casUniq = casUniq then some ⟨flags, item.casUniq + 1, data⟩ else none
    | none => none

/-- `Number.MAX_SAFE_INTEGER`. -/
def maxSafeInteger : Int := 2 ^ 53 - 1

def incr (key : Bytes) (value : Number) : Action State Unit :=
  memcached.getAndAct c key (Option.map fun item =>
    let newCount := ((parseInt item.data).add value).min (.integer maxSafeInteger)
    ⟨item.flags, item.casUniq + 1, numberToText newCount⟩)

def decr (key : Bytes) (value : Number) : Action State Unit :=
  memcached.getAndAct c key (Option.map fun item =>
    let newCount := ((parseInt item.data).sub value).max (.integer 0)
    ⟨item.flags, item.casUniq + 1, numberToText newCount⟩)

/-- The one action that deletes. -/
def delete (key : Bytes) : Action State Unit := do
  memcached.checkWritable
  match ← memcached.getItem key with
  | some _ => appDelete c key
  | none => return

def flush : Action State Unit := do
  memcached.checkWritable
  appClear c

end EasyMemcached

/-! ## The inner API -/

namespace InnerApi

open State

variable (c : Crypto)

/-- `ctx.assert(value, 400)`. -/
def assert400 {α : Type} : Option α → Action State α
  | some a => pure a
  | none => throw ⟨"Bad Request"⟩

/-- A JSON value that is a number and not zero. -/
def truthyNumber : Option ℚ → Option ℚ
  | some n => if Doubles.toNumber n = 0 then none else some (Doubles.toNumber n)
  | none => none

/-- `GET /accounts/:address`, and the requests for a part of it. -/
def readAccount (address : Option Address) : Action State Account := do
  let address ← assert400 address
  getAccount address

/-- `PUT /accounts/:address/balance`. An argument is `none` where the text is no address, or the
value no number. -/
def putBalance (address : Option Address) (balance : Option ℚ) : Action State Unit := do
  let address ← assert400 address
  let balance ← assert400 (truthyNumber balance)
  let account ← getAccount address
  setAccount c address (account.setBalance balance)

/-- `POST /accounts/:address/transfer`. -/
def transfer (fromAddress toAddress : Option Address) (value : Option ℚ) : Action State Unit := do
  let fromAddress ← assert400 fromAddress
  let toAddress ← assert400 toAddress
  let value ← assert400 (truthyNumber value)
  let fromAccount ← getAccount fromAddress
  setAccount c fromAddress (← Action.fromResult (fromAccount.decreaseBalance value))
  let toAccount ← getAccount toAddress
  setAccount c toAddress (toAccount.increaseBalance value)

/-- The body of `PUT /validators`, if each text in it is an address. -/
def parseValidators (body : List (Option Address × PowerValue)) :
    Option (List (Address × PowerValue)) :=
  body.mapM fun (address, power) => address.map fun a => (a, power)

/-- `PUT /validators`. Nothing but the meta store is written. -/
def putValidators (body : List (Option Address × PowerValue)) : Action State Unit := do
  let newValidators ← assert400 (parseValidators body)
  setNextValidatorSet newValidators

end InnerApi

/-! ## Calls -/

/-- What a request for an account is answered with. -/
inductive AccountPart
  | whole
  | nonce
  | balance
  deriving DecidableEq

/-- A request of the application. `other` stands for those that look at no entry of the trie. -/
inductive Call
  | other
  /-- `get`, and `gets`, which yields the tokens too. -/
  | retrieve (keys : List Bytes) (withCas : Bool)
  | getAccount (address : Option Address) (part : AccountPart)
  | set (key : Bytes) (flags : Int) (data : Bytes)
  | add (key : Bytes) (flags : Int) (data : Bytes)
  | replace (key : Bytes) (flags : Int) (data : Bytes)
  | append (key data : Bytes)
  | prepend (key data : Bytes)
  | cas (key : Bytes) (flags casUniq : Int) (data : Bytes)
  | delete (key : Bytes)
  | incr (key : Bytes) (value : Number)
  | decr (key : Bytes) (value : Number)
  | flush
  | putBalance (address : Option Address) (balance : Option ℚ)
  | transfer (fromAddress toAddress : Option Address) (value : Option ℚ)
  | putValidators (body : List (Option Address × PowerValue))
  deriving DecidableEq

namespace Call

/-- Serving a call; a throw becomes an error response. -/
def run (c : Crypto) (memcached : EasyMemcached) : Call → Action State Unit
  | other => pure ()
  | retrieve keys _ => do
      let _ ← memcached.gets keys
      return
  | getAccount address _ => do
      let _ ← InnerApi.readAccount address
      return
  | set key flags data => memcached.set c key flags data
  | add key flags data => memcached.add c key flags data
  | replace key flags data => memcached.replace c key flags data
  | append key data => memcached.append c key data
  | prepend key data => memcached.prepend c key data
  | cas key flags casUniq data => memcached.cas c key flags casUniq data
  | delete key => memcached.delete c key
  | incr key value => memcached.incr c key value
  | decr key value => memcached.decr c key value
  | flush => memcached.flush c
  | putBalance address balance => InnerApi.putBalance c address balance
  | transfer fromAddress toAddress value => InnerApi.transfer c fromAddress toAddress value
  | putValidators body => InnerApi.putValidators body

/-- The state after a call was answered. -/
def serve (c : Crypto) (memcached : EasyMemcached) (call : Call) (state : State) : State :=
  Fallible.final (call.run c memcached state)

/-- The state after some calls, one after another. -/
def serveAll (c : Crypto) (memcached : EasyMemcached) (calls : List Call) (state : State) : State :=
  calls.foldl (fun state call => call.serve c memcached state) state

end Call

end EasyFramework
end UniqysKit
