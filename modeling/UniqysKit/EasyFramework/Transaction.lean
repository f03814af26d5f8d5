import UniqysKit.EasyFramework.State

/-!
# Transactions of the easy framework

`transaction.ts` and the request half of `http-message.ts` of `packages/easy-types`: what the data of
a core transaction is decoded to.  The hash of a transaction is that of its fields written again, so
text that is no UTF-8 is hashed with its replacement characters.
-/

namespace UniqysKit
namespace EasyFramework

/-! ## Text -/

namespace Utf8

/-- A character of which some bytes are missing, and the bounds of the next one. -/
structure Partial where
  needed : Nat
  codePoint : Nat
  lower : Nat
  upper : Nat
  deriving DecidableEq

/-- What stands for bytes that are no character. -/
def replacement : Char := Char.ofNat 0xFFFD

/-- The first byte of a character. -/
def lead (byte : Nat) : List Char × Option Partial :=
  if byte ≤ 0x7F then ([Char.ofNat byte], none)
  else if 0xC2 ≤ byte ∧ byte ≤ 0xDF then ([], some ⟨1, byte - 0xC0, 0x80, 0xBF⟩)
  else if 0xE0 ≤ byte ∧ byte ≤ 0xEF then
    ([], some ⟨2, byte - 0xE0, if byte = 0xE0 then 0xA0 else 0x80, if byte = 0xED then 0x9F else 0xBF⟩)
  else if 0xF0 ≤ byte ∧ byte ≤ 0xF4 then
    ([], some ⟨3, byte - 0xF0, if byte = 0xF0 then 0x90 else 0x80, if byte = 0xF4 then 0x8F else 0xBF⟩)
  else ([replacement], none)

/-- A byte, after which more may be missing. -/
def next : Option Partial → Nat → List Char × Option Partial
  | none, byte => lead byte
  | some partly, byte =>
      if partly.lower ≤ byte ∧ byte ≤ partly.upper then
        let codePoint := partly.codePoint * 64 + (byte - 0x80)
        if partly.needed = 1 then ([Char.ofNat codePoint], none)
        else ([], some ⟨partly.needed - 1, codePoint, 0x80, 0xBF⟩)
      else
        -- the bytes so far are replaced, and this one is read again as a first one
        let (chars, rest) := lead byte
        (replacement :: chars, rest)

def decode : Option Partial → Bytes → List Char
  | none, [] => []
  | some _, [] => [replacement]
  | partly, byte :: bytes =>
      let (chars, partly) := next partly byte.toNat
      chars ++ decode partly bytes

/-- `Buffer.toString('utf8')`. -/
def toString (bytes : Bytes) : String := String.ofList (decode none bytes)

end Utf8

/-- `String.deserialize`. -/
def deserializeString : Deserializer String := fun reader => do
  let (bytes, rest) ← SizedBuffer.deserialize reader
  return (Utf8.toString bytes, rest)

/-! ## Requests -/

structure HttpRequest where
  method : String
  path : String
  headers : List (String × String)
  body : Bytes
  deriving DecidableEq

namespace HttpRequest

def serialize : Serializer HttpRequest := fun request => do
  let method ← serializeString request.method
  let path ← serializeString request.path
  let headers ← List.serialize (fun (key, value) => do
    return (← serializeString key) ++ (← serializeString value)) request.headers
  let body ← SizedBuffer.serialize request.body
  return method ++ path ++ headers ++ body

/-- A field of `HttpHeaders`. -/
def deserializeHeader : Deserializer (String × String) := fun reader => do
  let (key, rest) ← deserializeString reader
  let (value, rest) ← deserializeString rest
  return ((key, value), rest)

def deserialize : Deserializer HttpRequest := fun reader => do
  let (method, rest) ← deserializeString reader
  let (path, rest) ← deserializeString rest
  let (headers, rest) ← List.deserialize deserializeHeader rest
  let (body, rest) ← SizedBuffer.deserialize rest
  return (⟨method, path, headers, body⟩, rest)

end HttpRequest

/-! ## Transactions -/

structure Transaction where
  nonce : Nat
  request : HttpRequest
  deriving DecidableEq

namespace Transaction

def serialize : Serializer Transaction := fun tx => do
  return (← UInt64.serialize tx.nonce) ++ (← tx.request.serialize)

/-- The constructor computes the hash, and throws where the fields cannot be written. -/
def hash (c : Crypto) (tx : Transaction) : Result Hash := do
  return Hash.fromData c (← tx.serialize)

def deserialize (c : Crypto) : Deserializer Transaction := fun reader => do
  let (nonce, rest) ← UInt64.deserialize reader
  let (request, rest) ← HttpRequest.deserialize rest
  let tx : Transaction := ⟨nonce, request⟩
  let _ ← tx.hash c
  return (tx, rest)

end Transaction

structure SignedTransaction where
  signature : Signature
  transaction : Transaction
  signer : Address
  deriving DecidableEq

namespace SignedTransaction

def nonce (tx : SignedTransaction) : Nat := tx.transaction.nonce

/-- The constructor recovers the signer. -/
def new (c : Crypto) (signature : Signature) (transaction : Transaction) :
    Result SignedTransaction := do
  match signature.address c (← transaction.hash c) with
  | some signer => return ⟨signature, transaction, signer⟩
  | none => throw ⟨"couldn't recover public key from signature"⟩

def sign (c : Crypto) (signer : KeyPair) (transaction : Transaction) : Result SignedTransaction := do
  new c (signer.sign c (← transaction.hash c)) transaction

def serialize : Serializer SignedTransaction := fun tx => do
  return tx.signature.buffer ++ (← tx.transaction.serialize)

def deserialize (c : Crypto) : Deserializer SignedTransaction := fun reader => do
  let (signature, rest) ← Signature.deserialize reader
  let (transaction, rest) ← Transaction.deserialize c rest
  return (← new c signature transaction, rest)

end SignedTransaction

end EasyFramework
end UniqysKit
