import Mathlib.Data.List.Induction
import Mathlib.Tactic.Ring
import Mathlib.Tactic.NormNum

/-!
# Fixed-width big-endian numerals

`toBytes w n` writes a natural number as exactly `w` bytes, most significant byte first;
`ofBytes` reads a byte string back.  Bits above `8 * w` are dropped by the writer, so the round
trip `ofBytes_toBytes` is exact below `256 ^ w`.
-/

namespace UniqysKit
namespace Library
namespace BigEndian

/-- The `w` big-endian bytes of `n`. -/
def toBytes : Nat → Nat → List UInt8
  | 0, _ => []
  | w + 1, n => UInt8.ofNat (n / 256 ^ w) :: toBytes w n

/-- The natural number with the given big-endian bytes. -/
def ofBytes (bytes : List UInt8) : Nat :=
  bytes.foldl (fun n b => n * 256 + b.toNat) 0

@[simp] theorem length_toBytes (w n : Nat) : (toBytes w n).length = w := by
  induction w generalizing n with
  | zero =>
      rfl
  | succ w ih =>
      simp [toBytes, ih]

/-- The last byte apart. -/
theorem toBytes_succ (w n : Nat) :
    toBytes (w + 1) n = toBytes w (n / 256) ++ [UInt8.ofNat (n % 256)] := by
  induction w with
  | zero =>
      have hlast : UInt8.ofNat n = UInt8.ofNat (n % 256) := by
        apply UInt8.toNat.inj
        simp [UInt8.toNat_ofNat']
      rw [toBytes, toBytes, toBytes, Nat.pow_zero, Nat.div_one, hlast, List.nil_append]
  | succ w ih =>
      have hdiv : n / 256 ^ (w + 1) = n / 256 / 256 ^ w := by
        rw [Nat.div_div_eq_div_mul, Nat.pow_succ, Nat.mul_comm]
      rw [toBytes, ih, hdiv, toBytes, List.cons_append]

@[simp] theorem ofBytes_append_singleton (bytes : List UInt8) (b : UInt8) :
    ofBytes (bytes ++ [b]) = ofBytes bytes * 256 + b.toNat := by
  simp [ofBytes]

theorem ofBytes_toBytes {w n : Nat} (h : n < 256 ^ w) : ofBytes (toBytes w n) = n := by
  induction w generalizing n with
  | zero =>
      have hn : n = 0 := by simpa using h
      subst hn
      rfl
  | succ w ih =>
      have hdiv : n / 256 < 256 ^ w := by
        rw [pow_succ] at h
        omega
      have hmod : (UInt8.ofNat (n % 256)).toNat = n % 256 := by
        simp [UInt8.toNat_ofNat']
      rw [toBytes_succ, ofBytes_append_singleton, ih hdiv, hmod]
      omega

theorem ofBytes_lt (bytes : List UInt8) : ofBytes bytes < 256 ^ bytes.length := by
  induction bytes using List.reverseRecOn with
  | nil => exact Nat.one_pos
  | append_singleton bytes b ih =>
      have hb := b.toNat_lt
      rw [ofBytes_append_singleton, List.length_append, List.length_singleton, pow_succ]
      omega

/-- Every byte string is the numeral of its number. -/
theorem toBytes_ofBytes {w : Nat} {bytes : List UInt8} (h : bytes.length = w) :
    toBytes w (ofBytes bytes) = bytes := by
  subst h
  induction bytes using List.reverseRecOn with
  | nil => rfl
  | append_singleton bytes b ih =>
      have hb := b.toNat_lt
      have hdiv : (ofBytes bytes * 256 + b.toNat) / 256 = ofBytes bytes := by omega
      have hmod : (ofBytes bytes * 256 + b.toNat) % 256 = b.toNat := by omega
      rw [List.length_append, List.length_singleton, ofBytes_append_singleton, toBytes_succ, hdiv, hmod,
        ih]
      simp

/-- A number that fits is written with leading zeros where there is more room. -/
theorem toBytes_add {k w n : Nat} (h : n < 256 ^ w) :
    toBytes (k + w) n = List.replicate k 0 ++ toBytes w n := by
  induction w generalizing n with
  | zero =>
      have hn : n = 0 := by simpa using h
      subst hn
      rw [Nat.add_zero, toBytes, List.append_nil]
      induction k with
      | zero => rfl
      | succ k ih =>
          rw [toBytes_succ, Nat.zero_div, ih, List.replicate_succ']
          rfl
  | succ w ih =>
      have hdiv : n / 256 < 256 ^ w := by
        rw [pow_succ] at h
        omega
      rw [← Nat.add_assoc, toBytes_succ, toBytes_succ, ih hdiv, List.append_assoc]

/-- Writing is injective on the numbers that fit. -/
theorem toBytes_inj {w n m : Nat} (hn : n < 256 ^ w) (hm : m < 256 ^ w)
    (h : toBytes w n = toBytes w m) : n = m := by
  rw [← ofBytes_toBytes hn, h, ofBytes_toBytes hm]

end BigEndian
end Library
end UniqysKit
