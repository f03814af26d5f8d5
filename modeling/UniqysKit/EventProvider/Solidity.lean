import UniqysKit.Signature

/-!
# What the contracts rely on

The libraries that the contracts of `packages/event-provider/ethereum` import, as far as they use
them: `SafeMath` and `BytesLib`.  They are not part of the repository, so there is a class for each,
with what it is documented to do.  A revert is a thrown error.  The precompiled `ecrecover` is a
parameter of what calls it.
-/

namespace UniqysKit
namespace EventProvider

open Library.BigEndian

/-- A failed `require` without a reason. -/
def reverted : Error := ⟨"revert"⟩

/-- An index out of the bounds of an array. -/
def invalidOpcode : Error := ⟨"invalid opcode"⟩

def outOfGas : Error := ⟨"out of gas"⟩

theorem require_eq_ok_iff {α : Type} {condition : Prop} [Decidable condition] {a a' : α} {e : Error} :
    (if condition then (.ok a : Result α) else .error e) = .ok a' ↔ condition ∧ a' = a := by
  split
  · rename_i hcondition
    simp only [Except.ok.injEq, hcondition, true_and]
    exact eq_comm
  · rename_i hcondition
    simp only [reduceCtorEq, hcondition, false_and]

/-! ## `SafeMath` -/

/-- The arithmetic of `uint256` that reverts where a result does not fit into a word. -/
class SafeMath where
  add : Nat → Nat → Result Nat
  sub : Nat → Nat → Result Nat
  mul : Nat → Nat → Result Nat
  add_eq_ok_iff : ∀ {a b n}, add a b = .ok n ↔ a + b < 2 ^ 256 ∧ n = a + b
  sub_eq_ok_iff : ∀ {a b n}, sub a b = .ok n ↔ b ≤ a ∧ n = a - b
  mul_eq_ok_iff : ∀ {a b n}, mul a b = .ok n ↔ a * b < 2 ^ 256 ∧ n = a * b

/-! ## `BytesLib` -/

/-- Bytes and big-endian numbers from a place on, or a revert where the buffer ends before. -/
class BytesLib where
  slice : Bytes → Nat → Nat → Result Bytes
  toUint8 : Bytes → Nat → Result Nat
  toUint32 : Bytes → Nat → Result Nat
  toBytes32 : Bytes → Nat → Result Bytes
  slice_eq_ok_iff : ∀ {bytes start length part}, slice bytes start length = .ok part ↔
    start + length ≤ bytes.length ∧ part = (bytes.drop start).take length
  toUint8_eq_ok_iff : ∀ {bytes start n}, toUint8 bytes start = .ok n ↔
    start + 1 ≤ bytes.length ∧ n = ofBytes ((bytes.drop start).take 1)
  toUint32_eq_ok_iff : ∀ {bytes start n}, toUint32 bytes start = .ok n ↔
    start + 4 ≤ bytes.length ∧ n = ofBytes ((bytes.drop start).take 4)
  toBytes32_eq_ok_iff : ∀ {bytes start part}, toBytes32 bytes start = .ok part ↔
    start + 32 ≤ bytes.length ∧ part = (bytes.drop start).take 32

namespace BytesLib

/-- What stands behind `before`. -/
theorem take_drop_append {before part after : Bytes} {start length : Nat}
    (hstart : before.length = start) (hlength : part.length = length) :
    start + length ≤ (before ++ (part ++ after)).length ∧
      ((before ++ (part ++ after)).drop start).take length = part := by
  subst hstart hlength
  rw [List.drop_left, List.take_left]
  simp

theorem slice_append [BytesLib] {before part after : Bytes} {start length : Nat}
    (hstart : before.length = start) (hlength : part.length = length) :
    slice (before ++ (part ++ after)) start length = .ok part := by
  rcases @take_drop_append before part after _ _ hstart hlength with ⟨hle, hpart⟩
  exact slice_eq_ok_iff.mpr ⟨hle, hpart.symm⟩

end BytesLib

/-! ### The libraries as they are -/

instance SafeMath.zeppelin : SafeMath where
  add a b := if a + b < 2 ^ 256 then .ok (a + b) else .error reverted
  sub a b := if b ≤ a then .ok (a - b) else .error reverted
  mul a b := if a * b < 2 ^ 256 then .ok (a * b) else .error reverted
  add_eq_ok_iff := require_eq_ok_iff
  sub_eq_ok_iff := require_eq_ok_iff
  mul_eq_ok_iff := require_eq_ok_iff

instance BytesLib.solidity : BytesLib where
  slice bytes start length :=
    if start + length ≤ bytes.length then .ok ((bytes.drop start).take length) else .error reverted
  toUint8 bytes start :=
    if start + 1 ≤ bytes.length then .ok (ofBytes ((bytes.drop start).take 1)) else .error reverted
  toUint32 bytes start :=
    if start + 4 ≤ bytes.length then .ok (ofBytes ((bytes.drop start).take 4)) else .error reverted
  toBytes32 bytes start :=
    if start + 32 ≤ bytes.length then .ok ((bytes.drop start).take 32) else .error reverted
  slice_eq_ok_iff := require_eq_ok_iff
  toUint8_eq_ok_iff := require_eq_ok_iff
  toUint32_eq_ok_iff := require_eq_ok_iff
  toBytes32_eq_ok_iff := require_eq_ok_iff

/-! ## `ecrecover` -/

/-- The address that signed the digest, from `v`, `r` and `s`; zero for an invalid signature. -/
abbrev Ecrecover := Hash → Nat → Bytes → Bytes → Address

/-- `ecrecover` finds the address that `Signature.address` finds. -/
def Agrees (c : Crypto) (ecrecover : Ecrecover) : Prop :=
  ∀ digest (signature : Signature) address, signature.address c digest = some address →
    ecrecover digest signature.recovery (signature.buffer.take 32)
      ((signature.buffer.drop 32).take 32) = address

/-- The precompiled contract over the functions of the node. -/
def ecrecoverOf (c : Crypto) : Ecrecover := fun digest v r s =>
  if v = 27 ∨ v = 28 then
    ((c.recover digest (r ++ s) ((v + 1) % 2)).map (Address.fromPublicKey c)).getD Address.zero
  else Address.zero

theorem agrees_ecrecoverOf (c : Crypto) : Agrees c (ecrecoverOf c) := by
  intro digest signature address haddress
  have hbytes : signature.buffer.take 32 ++ (signature.buffer.drop 32).take 32 =
      signature.buffer.take 64 := by
    rw [← List.take_add]
  have hv : signature.recovery = 27 ∨ signature.recovery = 28 := by
    unfold Signature.recovery
    rcases signature.recovery_mem with h | h
    · rw [h]
      exact .inl rfl
    · rw [h]
      exact .inr rfl
  unfold Signature.address Signature.recover at haddress
  rw [ecrecoverOf, if_pos hv, hbytes, haddress]
  rfl

end EventProvider
end UniqysKit
