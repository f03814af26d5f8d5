import UniqysKit.Serialize

/-!
# Hashes, addresses and signatures

The value types of `packages/signature` and the sized bytes of `packages/types`.  The sized
constructors throw on any other length, so the length is a field here and an ill-sized value cannot
be built.

Keccak and secp256k1 are third-party code.  They enter as a `Crypto` record: the functions the
program calls, and the one law about them that the program relies on, namely that recovering from a
signature gives back the key that made it.
-/

namespace UniqysKit

/-! ## Sized bytes -/

/-- A 32-byte hash. -/
structure Hash where
  buffer : Bytes
  size : buffer.length = 32
  deriving DecidableEq

namespace Hash

@[ext] theorem ext {h h' : Hash} (e : h.buffer = h'.buffer) : h = h' := by
  cases h
  cases h'
  simpa using e

/-- `Hash.zero`, the hash a nil vote carries. -/
def zero : Hash := ⟨List.replicate 32 0, by simp⟩

def serialize (h : Hash) : Bytes := h.buffer

def deserialize : Deserializer Hash := fun reader =>
  let (bytes, rest) := consume 32 reader
  if h : bytes.length = 32 then .ok (⟨bytes, h⟩, rest) else .error .typeError

theorem deserialize_append (h : Hash) (rest : Bytes) :
    deserialize (h.serialize ++ rest) = .ok (h, rest) := by
  simp [deserialize, serialize, consume_append h.size, h.size]

end Hash

/-- A 20-byte account address. -/
structure Address where
  buffer : Bytes
  size : buffer.length = 20
  deriving DecidableEq

namespace Address

@[ext] theorem ext {a a' : Address} (e : a.buffer = a'.buffer) : a = a' := by
  cases a
  cases a'
  simpa using e

def zero : Address := ⟨List.replicate 20 0, by simp⟩

def deserialize : Deserializer Address := fun reader =>
  let (bytes, rest) := consume 20 reader
  if h : bytes.length = 20 then .ok (⟨bytes, h⟩, rest) else .error .typeError

theorem deserialize_append (a : Address) (rest : Bytes) :
    deserialize (a.buffer ++ rest) = .ok (a, rest) := by
  simp [deserialize, consume_append a.size, a.size]

end Address

/-- A 64-byte public key, without its leading format byte. -/
structure PublicKey where
  buffer : Bytes
  size : buffer.length = 64
  deriving DecidableEq

/-- A 32-byte private key. -/
structure PrivateKey where
  buffer : Bytes
  size : buffer.length = 32
  deriving DecidableEq

/-- A signature: 64 bytes and the recovery byte `V`, which the constructor requires to be 27 or 28. -/
structure Signature where
  buffer : Bytes
  size : buffer.length = 65
  recovery_mem : buffer[64]? = some 27 ∨ buffer[64]? = some 28
  deriving DecidableEq

namespace Signature

@[ext] theorem ext {s s' : Signature} (e : s.buffer = s'.buffer) : s = s' := by
  cases s
  cases s'
  simpa using e

/-- The `V` byte. -/
def recovery (s : Signature) : Nat := ((s.buffer[64]?).getD 0).toNat

/-- The checks are those of the constructor. -/
def deserialize : Deserializer Signature := fun reader =>
  let (buffer, rest) := consume 65 reader
  if hsize : buffer.length = 65 then
    if hrecovery : buffer[64]? = some 27 ∨ buffer[64]? = some 28 then
      .ok (⟨buffer, hsize, hrecovery⟩, rest)
    else .error ⟨"invalid signature. V must be 27 or 28."⟩
  else .error .typeError

theorem deserialize_append (s : Signature) (rest : Bytes) :
    deserialize (s.buffer ++ rest) = .ok (s, rest) := by
  rw [deserialize, consume_append s.size]
  simp only [dif_pos s.size, dif_pos s.recovery_mem]

end Signature

/-! ## Cryptography -/

/-- The third-party functions: `keccak256`, and the secp256k1 operations on a digest. `recover`
takes the 64 signature bytes and the recovery id, and is `none` where the library throws. -/
structure Crypto where
  keccak256 : Bytes → Hash
  publicKeyCreate : PrivateKey → PublicKey
  signBytes : Hash → PrivateKey → { bytes : Bytes // bytes.length = 64 }
  signRecovery : Hash → PrivateKey → Bool
  recover : Hash → Bytes → Nat → Option PublicKey
  recover_sign : ∀ digest key, recover digest (signBytes digest key).1
    (signRecovery digest key).toNat = some (publicKeyCreate key)

namespace Hash

def fromData (c : Crypto) (data : Bytes) : Hash := c.keccak256 data

end Hash

/-- No two different byte strings of the list have the same hash. -/
def CollisionFree (c : Crypto) (data : List Bytes) : Prop :=
  ∀ x ∈ data, ∀ y ∈ data, Hash.fromData c x = Hash.fromData c y → x = y

theorem CollisionFree.mono {c : Crypto} {data data' : List Bytes} (h : CollisionFree c data')
    (hsub : data ⊆ data') : CollisionFree c data := by
  intro x hx y hy hxy
  exact h x (hsub hx) y (hsub hy) hxy

instance (c : Crypto) (data : List Bytes) : Decidable (CollisionFree c data) :=
  inferInstanceAs (Decidable (∀ x ∈ data, ∀ y ∈ data,
    Hash.fromData c x = Hash.fromData c y → x = y))

namespace Address

/-- The last 20 bytes of the hash of the public key. -/
def fromPublicKey (c : Crypto) (publicKey : PublicKey) : Address :=
  ⟨(Hash.fromData c publicKey.buffer).buffer.drop 12, by
    simp [(Hash.fromData c publicKey.buffer).size]⟩

end Address

namespace Signature

def hash (c : Crypto) (s : Signature) : Hash := Hash.fromData c s.buffer

/-- `Signature.sign`: the signature bytes followed by the recovery id moved from 0/1 to 27/28. -/
def sign (c : Crypto) (digest : Hash) (privateKey : PrivateKey) : Signature where
  buffer := (c.signBytes digest privateKey).1 ++ [if c.signRecovery digest privateKey then 28 else 27]
  size := by simp [(c.signBytes digest privateKey).2]
  recovery_mem := by
    have hlen := (c.signBytes digest privateKey).2
    cases c.signRecovery digest privateKey with
    | false => simp [hlen]
    | true => simp [hlen]

/-- `Signature.recover`, with `none` for a thrown error. -/
def recover (c : Crypto) (s : Signature) (digest : Hash) : Option PublicKey :=
  c.recover digest (s.buffer.take 64) ((s.recovery + 1) % 2)

/-- `Signature.address`: the address of the key recovered from the signature. -/
def address (c : Crypto) (s : Signature) (digest : Hash) : Option Address :=
  (s.recover c digest).map (Address.fromPublicKey c)

end Signature

/-- A node's key. -/
structure KeyPair where
  privateKey : PrivateKey
  deriving DecidableEq

namespace KeyPair

def address (c : Crypto) (k : KeyPair) : Address :=
  Address.fromPublicKey c (c.publicKeyCreate k.privateKey)

def sign (c : Crypto) (k : KeyPair) (digest : Hash) : Signature :=
  Signature.sign c digest k.privateKey

/-- What a key signs is attributed to its address. -/
@[simp] theorem address_sign (c : Crypto) (k : KeyPair) (digest : Hash) :
    (k.sign c digest).address c digest = some (k.address c) := by
  have hlen := (c.signBytes digest k.privateKey).2
  have htake : ((k.sign c digest).buffer.take 64) = (c.signBytes digest k.privateKey).1 := by
    simp [sign, Signature.sign, hlen]
  have hrec : ((k.sign c digest).recovery + 1) % 2 = (c.signRecovery digest k.privateKey).toNat := by
    cases hr : c.signRecovery digest k.privateKey with
    | false => simp [sign, Signature.sign, Signature.recovery, hr, hlen]
    | true => simp [sign, Signature.sign, Signature.recovery, hr, hlen]
  simp only [Signature.address, Signature.recover, htake, hrec, c.recover_sign, Option.map_some,
    address]

end KeyPair

/-! ## A transparent instance -/

/-- A polynomial hash of the bytes, never zero. -/
def Crypto.polynomial (data : Bytes) : Nat :=
  data.foldl (fun n b => (n * 257 + b.toNat + 1) % (2 ^ 256 - 190)) 7 + 1

/-- A stand-in for the third-party code on which concrete inputs can be evaluated: the hash is a
polynomial, a public key shows its private key, and a signature shows the key and the digest. -/
def Crypto.transparent : Crypto where
  keccak256 data := ⟨Library.BigEndian.toBytes 32 (polynomial data), by simp⟩
  publicKeyCreate key := ⟨key.buffer ++ List.replicate 32 0, by simp [key.size]⟩
  signBytes digest key := ⟨key.buffer ++ digest.buffer, by simp [key.size, digest.size]⟩
  signRecovery _ _ := false
  recover digest bytes recovery :=
    if h : bytes.length = 64 ∧ bytes.drop 32 = digest.buffer ∧ recovery = 0 then
      some ⟨bytes.take 32 ++ List.replicate 32 0, by simp [h.1]⟩
    else none
  recover_sign digest key := by
    have htake : (key.buffer ++ digest.buffer).take 32 = key.buffer := by
      rw [← key.size, List.take_left]
    have hdrop : (key.buffer ++ digest.buffer).drop 32 = digest.buffer := by
      rw [← key.size, List.drop_left]
    simp [key.size, digest.size, htake, hdrop]

theorem Crypto.foldl_mod_lt {m : Nat} (hm : 0 < m) (data : Bytes) {n : Nat} (hn : n < m) :
    data.foldl (fun n b => (n * 257 + b.toNat + 1) % m) n < m := by
  induction data generalizing n with
  | nil => exact hn
  | cons b data ih => exact ih (Nat.mod_lt _ hm)

theorem Crypto.polynomial_lt (data : Bytes) : polynomial data < 256 ^ 32 := by
  have hlt := foldl_mod_lt (show 0 < 2 ^ 256 - 190 by norm_num) data
    (show 7 < 2 ^ 256 - 190 by norm_num)
  have hle : 2 ^ 256 - 190 + 1 ≤ 256 ^ 32 := by norm_num
  exact lt_of_lt_of_le (Nat.succ_lt_succ hlt) hle

theorem Crypto.transparent_fromData (data : Bytes) :
    (Hash.fromData transparent data).buffer =
      Library.BigEndian.toBytes 32 (polynomial data) := rfl

theorem Crypto.transparent_fromData_ne_zero (data : Bytes) :
    Hash.fromData transparent data ≠ Hash.zero := by
  intro h
  have hval : polynomial data = 0 := by
    rw [← Library.BigEndian.ofBytes_toBytes (polynomial_lt data), ← transparent_fromData, h]
    decide
  exact absurd hval (Nat.succ_ne_zero _)

end UniqysKit
