import UniqysKit.EventProvider.Solidity

/-!
# The formats the contracts read

`Uniqys.sol`: signatures, headers and transactions as the contracts take them apart.  The cursor of
the parser is a `uint32`, and what it cuts out is checked against the length of the buffer only.
-/

namespace UniqysKit
namespace EventProvider
namespace Uniqys

open BytesLib (toUint8 toUint32 toBytes32)

def getPrecommitId : Nat := 2

structure BlockHeader where
  height : Nat
  timestamp : Nat
  lastBlockHash : Hash
  transactionRoot : Hash
  lastBlockConsensusRoot : Hash
  nextValidatorSetRoot : Hash
  appStateHash : Hash
  height_lt : height < 2 ^ 64
  timestamp_lt : timestamp < 2 ^ 64

structure Transaction where
  signer : Address
  method : Bytes
  path : Bytes
  headerKeys : List Bytes
  headerValues : List Bytes
  body : Bytes
  deriving DecidableEq

variable [BytesLib]

/-- `r`, `s` and `v` of a signature. -/
def parseSignature (signature : Bytes) : Result (Bytes × Bytes × Nat) := do
  let r ← toBytes32 signature 0
  let s ← toBytes32 signature 32
  let v ← toUint8 signature 64
  return (r, s, v)

/-- A buffer behind its size, and the place after it. -/
def sliceSizedBuffer (buf : Bytes) (start : Nat) : Result (Bytes × Nat) := do
  let size ← toUint32 buf start
  let next := (start + 4) % 2 ^ 32
  let res ← BytesLib.slice buf next size
  return (res, (next + size) % 2 ^ 32)

/-- The loop over the headers. -/
def parseHeaders (transaction : Bytes) : Nat → Nat → Result (List Bytes × List Bytes × Nat)
  | 0, i => .ok ([], [], i)
  | headerNum + 1, i => do
      let (headerKey, i) ← sliceSizedBuffer transaction i
      let (headerValue, i) ← sliceSizedBuffer transaction i
      let (headerKeys, headerValues, i) ← parseHeaders transaction headerNum i
      return (headerKey :: headerKeys, headerValue :: headerValues, i)

def parseTransaction (c : Crypto) (ecrecover : Ecrecover) (coreTransaction : Bytes) :
    Result Transaction := do
  -- the type byte of the core transaction is skipped
  let (transaction, _) ← sliceSizedBuffer coreTransaction 1
  let signature ← BytesLib.slice transaction 0 65
  let digest := Hash.fromData c
    (← BytesLib.slice transaction 65 ((transaction.length + 2 ^ 256 - 65) % 2 ^ 256))
  let (r, s, v) ← parseSignature signature
  let v := if v < 2 then v + 27 else v
  let signer := ecrecover digest v r s
  -- after the signature comes the nonce
  let (method, i) ← sliceSizedBuffer transaction (65 + 8)
  let (path, i) ← sliceSizedBuffer transaction i
  let headerNum ← toUint32 transaction i
  let (headerKeys, headerValues, i) ← parseHeaders transaction headerNum ((i + 4) % 2 ^ 32)
  let (body, _) ← sliceSizedBuffer transaction i
  return ⟨signer, method, path, headerKeys, headerValues, body⟩

/-- A signature is long enough, or the parser reverts. -/
theorem parseSignature_eq {signature : Bytes} (h : 65 ≤ signature.length) :
    parseSignature signature = .ok (signature.take 32, (signature.drop 32).take 32,
      Library.BigEndian.ofBytes ((signature.drop 64).take 1)) := by
  have hr : toBytes32 signature 0 = .ok (signature.take 32) :=
    BytesLib.toBytes32_eq_ok_iff.mpr ⟨by omega, by rw [List.drop_zero]⟩
  have hs : toBytes32 signature 32 = .ok ((signature.drop 32).take 32) :=
    BytesLib.toBytes32_eq_ok_iff.mpr ⟨by omega, rfl⟩
  have hv : toUint8 signature 64 = .ok (Library.BigEndian.ofBytes ((signature.drop 64).take 1)) :=
    BytesLib.toUint8_eq_ok_iff.mpr ⟨h, rfl⟩
  rw [parseSignature, hr, hs, hv]
  rfl

theorem le_length_of_parseSignature {signature : Bytes} {parts : Bytes × Bytes × Nat}
    (h : parseSignature signature = .ok parts) : 65 ≤ signature.length := by
  rcases Result.bind_eq_ok.mp h with ⟨r, -, h⟩
  rcases Result.bind_eq_ok.mp h with ⟨s, -, h⟩
  rcases Result.bind_eq_ok.mp h with ⟨v, hv, -⟩
  exact (BytesLib.toUint8_eq_ok_iff.mp hv).1

/-- The parts of a signature as `ecrecover` takes them. -/
theorem parseSignature_buffer (signature : Signature) :
    parseSignature signature.buffer = .ok (signature.buffer.take 32,
      (signature.buffer.drop 32).take 32, signature.recovery) := by
  have hbound : 64 < signature.buffer.length := by
    rw [signature.size]
    decide
  have hlast : signature.buffer.drop 64 = [signature.buffer[64]] := by
    rw [List.drop_eq_getElem_cons hbound, List.drop_eq_nil_of_le (by rw [signature.size])]
  have hrecovery : signature.recovery = signature.buffer[64].toNat := by
    simp only [Signature.recovery, List.getElem?_eq_getElem hbound, Option.getD_some]
  rw [parseSignature_eq (by rw [signature.size]), hlast, hrecovery]
  simp [Library.BigEndian.ofBytes]

end Uniqys

end EventProvider
end UniqysKit
