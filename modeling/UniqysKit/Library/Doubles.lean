import Mathlib.Algebra.Order.Field.Rat
import Mathlib.Data.Int.Log
import Mathlib.Data.Rat.Floor
import Mathlib.Tactic.Linarith
import Mathlib.Tactic.NormNum

/-!
# Numbers with 53 binary digits

Rounding of a number that is not negative to the nearest double, and of two that are as near to the
one whose last digit is even.  There is no greatest number here.

A bound that is a multiple of the unit in the last place is kept by rounding.
-/

namespace UniqysKit
namespace Library
namespace Doubles

variable {x v : ℚ} {m : ℤ}

def nearestInteger (x : ℚ) : ℤ :=
  if x - ⌊x⌋ > 1 / 2 ∨ x - ⌊x⌋ = 1 / 2 ∧ ⌊x⌋ % 2 = 1 then ⌊x⌋ + 1 else ⌊x⌋

/-- The exponent of the unit in the last place. -/
def exponent (x : ℚ) : ℤ := max (Int.log 2 x - 52) (-1074)

def unit (x : ℚ) : ℚ := 2 ^ exponent x

def nearest (x : ℚ) : ℚ := nearestInteger (x / unit x) * unit x

theorem le_nearestInteger (h : m ≤ x) : m ≤ nearestInteger x := by
  have hfloor := Int.le_floor.mpr h
  rw [nearestInteger]
  split_ifs <;> omega

theorem nearestInteger_le (h : x ≤ m) : nearestInteger x ≤ m := by
  have hfloor : ⌊x⌋ ≤ m := Int.floor_le_iff.mpr (lt_of_le_of_lt h (by linarith))
  rw [nearestInteger]
  split_ifs with hup
  · -- an integer is not rounded up
    have hne : ⌊x⌋ ≠ m := by
      intro heq
      have hx : x - ⌊x⌋ ≤ 0 := by
        rw [heq]
        linarith
      rcases hup with hup | ⟨hup, -⟩ <;> linarith
    omega
  · exact hfloor

theorem unit_pos (x : ℚ) : 0 < unit x := zpow_pos two_pos _

/-- A bound from below that is a multiple of the unit. -/
theorem mul_unit_le_nearest (h : m * unit x ≤ x) : m * unit x ≤ nearest x := by
  have hpos := unit_pos x
  have hle : (m : ℚ) ≤ x / unit x := (le_div_iff₀ hpos).mpr h
  rw [nearest]
  exact mul_le_mul_of_nonneg_right (by exact_mod_cast le_nearestInteger hle) (le_of_lt hpos)

/-- A bound from above that is a multiple of the unit. -/
theorem nearest_le_mul_unit (h : x ≤ m * unit x) : nearest x ≤ m * unit x := by
  have hpos := unit_pos x
  have hle : x / unit x ≤ (m : ℚ) := (div_le_iff₀ hpos).mpr h
  rw [nearest]
  exact mul_le_mul_of_nonneg_right (by exact_mod_cast nearestInteger_le hle) (le_of_lt hpos)

theorem nearest_of_eq (h : x = m * unit x) : nearest x = x := by
  have hle := nearest_le_mul_unit (le_of_eq h)
  have hge := mul_unit_le_nearest (le_of_eq h.symm)
  linarith

/-- Multiples of powers of two that are at least the unit are multiples of the unit. -/
theorem exists_mul_unit (k : ℤ) {e : ℤ} (he : exponent x ≤ e) :
    ∃ m : ℤ, (k : ℚ) * 2 ^ e = m * unit x := by
  rcases Int.eq_ofNat_of_zero_le (sub_nonneg.mpr he) with ⟨n, hn⟩
  refine ⟨k * 2 ^ n, ?_⟩
  have hsum : e = n + exponent x := by omega
  rw [unit, hsum, zpow_add₀ two_ne_zero, zpow_natCast]
  push_cast
  ring

/-- A number whose unit is an integer has at least 53 digits before the point. -/
theorem le_of_exponent_nonneg (h : 0 ≤ exponent x) :
    1 ≤ unit x ∧ ((2 ^ 52 : ℤ) : ℚ) * unit x ≤ x := by
  have hlog : exponent x = Int.log 2 x - 52 := by
    rw [exponent] at h ⊢
    omega
  have hpos : 0 < x := by
    by_contra hneg
    rw [exponent, Int.log_of_right_le_zero 2 (not_lt.mp hneg)] at h
    omega
  refine ⟨one_le_zpow₀ one_le_two h, ?_⟩
  have hself := Int.zpow_log_le_self (b := 2) (by norm_num) hpos
  have hsplit : Int.log 2 x = 52 + exponent x := by omega
  rw [hsplit, Nat.cast_ofNat, zpow_add₀ two_ne_zero] at hself
  calc
    ((2 ^ 52 : ℤ) : ℚ) * unit x
        = 2 ^ (52 : ℤ) * 2 ^ exponent x := by norm_num [unit]
    _ ≤ x := hself

/-- Rounding keeps a bound from below by a half. -/
theorem le_nearest {j : ℕ} (hj : j < 2 ^ 53) (h : (j : ℚ) / 2 ≤ x) : (j : ℚ) / 2 ≤ nearest x := by
  by_cases hexp : 0 ≤ exponent x
  · rcases le_of_exponent_nonneg hexp with ⟨hunit, hle⟩
    have hround := mul_unit_le_nearest hle
    have hcast : (j : ℚ) < 2 ^ 53 := by exact_mod_cast hj
    push_cast at hround
    linarith
  · have hhalf : (j : ℚ) / 2 = ((j : ℤ) : ℚ) * 2 ^ (-1 : ℤ) := by
      rw [zpow_neg_one, Int.cast_natCast, div_eq_mul_inv]
    rcases exists_mul_unit (x := x) (j : ℤ) (by omega : exponent x ≤ -1) with ⟨m, hm⟩
    rw [hhalf, hm] at h ⊢
    exact mul_unit_le_nearest h

/-- Rounding keeps a bound from above by a half. -/
theorem nearest_le {j : ℕ} (hj : j < 2 ^ 53) (h : x ≤ (j : ℚ) / 2) : nearest x ≤ (j : ℚ) / 2 := by
  have hexp : exponent x ≤ -1 := by
    by_contra hexp
    rcases le_of_exponent_nonneg (by omega : 0 ≤ exponent x) with ⟨hunit, hle⟩
    have hcast : (j : ℚ) < 2 ^ 53 := by exact_mod_cast hj
    push_cast at hle
    linarith
  have hhalf : (j : ℚ) / 2 = ((j : ℤ) : ℚ) * 2 ^ (-1 : ℤ) := by
    rw [zpow_neg_one, Int.cast_natCast, div_eq_mul_inv]
  rcases exists_mul_unit (x := x) (j : ℤ) hexp with ⟨m, hm⟩
  rw [hhalf, hm] at h ⊢
  exact nearest_le_mul_unit h

/-- A fraction of one with up to 52 digits is a number. -/
theorem nearest_fraction {k n : ℕ} (hk : k < 2 ^ n) (hn : n ≤ 52) :
    nearest ((k : ℚ) / 2 ^ n) = (k : ℚ) / 2 ^ n := by
  have hlog : Int.log 2 ((k : ℚ) / 2 ^ n) ≤ 0 := by
    by_cases hpos : 0 < (k : ℚ) / 2 ^ n
    · have hlt : (k : ℚ) / 2 ^ n < ((2 : ℕ) : ℚ) ^ (0 : ℤ) := by
        rw [zpow_zero, div_lt_one (by positivity)]
        exact_mod_cast hk
      exact le_of_lt ((Int.lt_zpow_iff_log_lt (by norm_num) hpos).mp hlt)
    · exact le_of_eq (Int.log_of_right_le_zero 2 (not_lt.mp hpos))
  have hexp : exponent ((k : ℚ) / 2 ^ n) ≤ -n := by
    rw [exponent]
    omega
  rcases exists_mul_unit (x := (k : ℚ) / 2 ^ n) (k : ℤ) hexp with ⟨m, hm⟩
  have hform : (k : ℚ) / 2 ^ n = ((k : ℤ) : ℚ) * 2 ^ (-n : ℤ) := by
    rw [zpow_neg, zpow_natCast, Int.cast_natCast, div_eq_mul_inv]
  exact nearest_of_eq (hform.trans hm)

/-! ## Numbers that are doubles -/

/-- A whole number of units with up to 53 digits. -/
theorem nearest_of_lt {k : ℕ} {e : ℤ} (hk : k < 2 ^ 53) (he : -1074 ≤ e) (hx : x = k * 2 ^ e) :
    nearest x = x := by
  by_cases hpos : 0 < x
  · have hlt : x < ((2 : ℕ) : ℚ) ^ (53 + e) := by
      rw [hx, Nat.cast_ofNat, zpow_add₀ two_ne_zero]
      refine mul_lt_mul_of_pos_right ?_ (zpow_pos two_pos e)
      exact_mod_cast hk
    have hlog := (Int.lt_zpow_iff_log_lt (by norm_num) hpos).mp hlt
    have hexp : exponent x ≤ e := by
      rw [exponent]
      omega
    rcases exists_mul_unit (k : ℤ) hexp with ⟨m, hm⟩
    rw [Int.cast_natCast, ← hx] at hm
    exact nearest_of_eq hm
  · have hnonneg : 0 ≤ x := by
      rw [hx]
      exact mul_nonneg (Nat.cast_nonneg k) (le_of_lt (zpow_pos two_pos e))
    have hzero : x = ((0 : ℤ) : ℚ) * unit x := by
      rw [Int.cast_zero, zero_mul]
      linarith
    exact nearest_of_eq hzero

theorem lt_mul_unit (x : ℚ) : x < ((2 ^ 53 : ℕ) : ℚ) * unit x := by
  have hself := Int.lt_zpow_succ_log_self (b := 2) (by norm_num) x
  rw [Nat.cast_ofNat] at hself
  have hle : (2 : ℚ) ^ (Int.log 2 x + 1) ≤ 2 ^ (53 + exponent x) := by
    refine zpow_le_zpow_right₀ one_le_two ?_
    rw [exponent]
    omega
  rw [zpow_add₀ two_ne_zero (53 : ℤ)] at hle
  calc
    x < 2 ^ (Int.log 2 x + 1) := hself
    _ ≤ 2 ^ (53 : ℤ) * 2 ^ exponent x := hle
    _ = ((2 ^ 53 : ℕ) : ℚ) * unit x := by norm_num [unit]

/-- What has been rounded is not rounded again. -/
theorem nearest_nearest (h : 0 ≤ x) : nearest (nearest x) = nearest x := by
  have hpos := unit_pos x
  have hnonneg : 0 ≤ nearestInteger (x / unit x) :=
    le_nearestInteger (by rw [Int.cast_zero]; exact div_nonneg h (le_of_lt hpos))
  have hle : nearestInteger (x / unit x) ≤ 2 ^ 53 := by
    refine nearestInteger_le ((div_le_iff₀ hpos).mpr ?_)
    have hlt := lt_mul_unit x
    push_cast at hlt ⊢
    exact le_of_lt hlt
  rcases Int.eq_ofNat_of_zero_le hnonneg with ⟨k, hk⟩
  have hexp : -1074 ≤ exponent x := le_max_right _ _
  have hnearest : nearest x = k * 2 ^ exponent x := by
    rw [nearest, hk, Int.cast_natCast, unit]
  by_cases hlast : k = 2 ^ 53
  · -- the digits are those of the next power of two
    refine nearest_of_lt (k := 2 ^ 52) (e := exponent x + 1) (by norm_num) (by omega) ?_
    rw [hnearest, hlast, zpow_add_one₀ two_ne_zero]
    push_cast
    ring
  · exact nearest_of_lt (by omega) hexp hnearest

theorem nearestInteger_le_add (x : ℚ) : (nearestInteger x : ℚ) ≤ x + 1 / 2 := by
  have hfloor := Int.floor_le x
  rw [nearestInteger]
  split_ifs with hup
  · push_cast
    rcases hup with hup | ⟨hup, -⟩ <;> linarith
  · linarith

/-- Rounding adds at most half a unit. -/
theorem nearest_le_add (x : ℚ) : nearest x ≤ x + unit x / 2 := by
  have hpos := unit_pos x
  have hmul := mul_le_mul_of_nonneg_right (nearestInteger_le_add (x / unit x)) (le_of_lt hpos)
  rw [add_mul, div_mul_cancel₀ x (ne_of_gt hpos)] at hmul
  rw [nearest]
  linarith

/-- The unit of a number is no more than the last of its 53 digits. -/
theorem mul_unit_le (h : 1 / 2 < x) : (2 : ℚ) ^ 52 * unit x ≤ x := by
  have hpos : 0 < x := by linarith
  have hlog : -1 ≤ Int.log 2 x := by
    refine (Int.zpow_le_iff_le_log (by norm_num) hpos).mp ?_
    rw [Nat.cast_ofNat, zpow_neg_one]
    linarith
  have hself := Int.zpow_log_le_self (b := 2) (by norm_num) hpos
  have hexp : Int.log 2 x = 52 + exponent x := by
    rw [exponent]
    omega
  rw [hexp, Nat.cast_ofNat, zpow_add₀ two_ne_zero] at hself
  exact_mod_cast hself

/-- A number that is below a natural number by the last of its digits is not rounded up to it. -/
theorem nearest_lt {n : ℕ} (hn : 0 < n) (hgap : (n : ℚ) / 2 ^ 53 ≤ n - x) : nearest x < n := by
  have hone : (1 : ℚ) ≤ n := by exact_mod_cast hn
  by_cases hhalf : x ≤ ((1 : ℕ) : ℚ) / 2
  · have hle := nearest_le (by norm_num) hhalf
    push_cast at hle
    linarith
  · rw [Nat.cast_one, not_le] at hhalf
    have hadd := nearest_le_add x
    have hunit := mul_unit_le hhalf
    by_contra hge
    linarith

/-- There is no double between one and the last of its digits. -/
theorem le_of_lt_one (hx : nearest x = x) (hlt : x < 1) : x ≤ 1 - 1 / 2 ^ 53 := by
  by_cases hhalf : x < 1 / 2
  · refine le_of_lt (hhalf.trans_le ?_)
    norm_num
  · have hpos : 0 < x := by linarith
    have hlow : -1 ≤ Int.log 2 x := by
      refine (Int.zpow_le_iff_le_log (by norm_num) hpos).mp ?_
      rw [Nat.cast_ofNat, zpow_neg_one]
      linarith
    have hhigh : Int.log 2 x < 0 := by
      refine (Int.lt_zpow_iff_log_lt (by norm_num) hpos).mp ?_
      rwa [zpow_zero]
    have hexp : exponent x = -53 := by
      rw [exponent]
      omega
    -- the digits of the number are an integer below `2 ^ 53`
    have hdigits : x = nearestInteger (x / unit x) * (1 / 2 ^ 53) := by
      have hunit : unit x = 1 / 2 ^ 53 := by
        rw [unit, hexp]
        norm_num
      rw [← hunit]
      exact hx.symm
    generalize nearestInteger (x / unit x) = k at hdigits
    have hk : k < 2 ^ 53 := by
      have hcast : (k : ℚ) < 2 ^ 53 := by linarith
      exact_mod_cast hcast
    have hk' : (k : ℚ) ≤ 2 ^ 53 - 1 := by exact_mod_cast Int.le_sub_one_of_lt hk
    linarith

/-- The unit of a number is at most that of the numbers below the next power of two. -/
theorem unit_le {e : ℤ} (he : 1 ≤ e) (h : x < 2 ^ e) : unit x ≤ 2 ^ (e - 53) := by
  refine zpow_le_zpow_right₀ one_le_two ?_
  rw [exponent]
  by_cases hpos : 0 < x
  · have hlog := (Int.lt_zpow_iff_log_lt (b := 2) (by norm_num) hpos).mp (by exact_mod_cast h)
    omega
  · rw [Int.log_of_right_le_zero 2 (not_lt.mp hpos)]
    omega

theorem unit_eq {e : ℤ} (he : -1021 ≤ e) (hlow : 2 ^ e ≤ x) (hhigh : x < 2 ^ (e + 1)) :
    unit x = 2 ^ (e - 52) := by
  have hpos : 0 < x := (zpow_pos two_pos e).trans_le hlow
  have hle := (Int.zpow_le_iff_le_log (b := 2) (by norm_num) hpos).mp (by exact_mod_cast hlow)
  have hlt := (Int.lt_zpow_iff_log_lt (b := 2) (by norm_num) hpos).mp (by exact_mod_cast hhigh)
  rw [unit, exponent]
  congr 1
  omega

/-- An even number of units is what is nearest up to half a unit above. -/
theorem nearest_of_even (heven : m % 2 = 0) (hlow : m * unit x ≤ x)
    (hhigh : x ≤ m * unit x + unit x / 2) : nearest x = m * unit x := by
  have hpos := unit_pos x
  have hle : (m : ℚ) ≤ x / unit x := (le_div_iff₀ hpos).mpr hlow
  have hge : x / unit x ≤ m + 1 / 2 := by
    rw [div_le_iff₀ hpos]
    linarith
  have hfloor : ⌊x / unit x⌋ = m := Int.floor_eq_iff.mpr ⟨hle, by linarith⟩
  have hinteger : nearestInteger (x / unit x) = m := by
    rw [nearestInteger, hfloor, if_neg]
    rintro (hup | ⟨-, hodd⟩)
    · linarith
    · omega
  rw [nearest, hinteger]

/-! ## Numbers with a sign -/

/-- The nearest double. -/
def toNumber (x : ℚ) : ℚ := if x < 0 then -nearest (-x) else nearest x

theorem toNumber_of_nonneg (h : 0 ≤ x) : toNumber x = nearest x := if_neg (not_lt.mpr h)

theorem nearest_nonneg (h : 0 ≤ x) : 0 ≤ nearest x := by
  have hle := @mul_unit_le_nearest x 0 (by rw [Int.cast_zero, zero_mul]; exact h)
  rwa [Int.cast_zero, zero_mul] at hle

theorem toNumber_nonneg (h : 0 ≤ x) : 0 ≤ toNumber x := by
  rw [toNumber_of_nonneg h]
  exact nearest_nonneg h

theorem toNumber_natCast {n : ℕ} (h : n < 2 ^ 53) : toNumber n = n := by
  rw [toNumber_of_nonneg (Nat.cast_nonneg n)]
  exact nearest_of_lt (k := n) (e := 0) h (by norm_num) (by rw [zpow_zero, mul_one])

/-- What has been rounded is not rounded again. -/
theorem toNumber_toNumber (x : ℚ) : toNumber (toNumber x) = toNumber x := by
  by_cases hneg : x < 0
  · have hpos : 0 ≤ -x := by linarith
    have hnearest := nearest_nonneg hpos
    rw [toNumber, toNumber, if_pos hneg]
    split_ifs with hless
    · rw [neg_neg, nearest_nearest hpos]
    · -- a number so small that it becomes zero
      have hzero : nearest (-x) = 0 := by linarith
      rw [hzero, neg_zero]
      exact nearest_of_eq (m := 0) (by rw [Int.cast_zero, zero_mul])
  · rw [toNumber_of_nonneg (not_lt.mp hneg), toNumber_of_nonneg (nearest_nonneg (not_lt.mp hneg)),
      nearest_nearest (not_lt.mp hneg)]

/-- Rounding keeps a bound from below by a natural number. -/
theorem natCast_le_toNumber {n : ℕ} (hn : n < 2 ^ 52) (h : (n : ℚ) ≤ x) : (n : ℚ) ≤ toNumber x := by
  have hhalf : ((2 * n : ℕ) : ℚ) / 2 = n := by
    push_cast
    ring
  rw [toNumber_of_nonneg ((Nat.cast_nonneg n).trans h), ← hhalf]
  exact le_nearest (by omega) (hhalf ▸ h)

/-- Rounding keeps a bound from above by a natural number. -/
theorem toNumber_le_natCast {n : ℕ} (hn : n < 2 ^ 52) (h : x ≤ n) : toNumber x ≤ n := by
  have hhalf : ((2 * n : ℕ) : ℚ) / 2 = n := by
    push_cast
    ring
  by_cases hneg : x < 0
  · have hnearest := nearest_nonneg (x := -x) (by linarith)
    rw [toNumber, if_pos hneg]
    linarith [Nat.cast_nonneg (α := ℚ) n]
  · rw [toNumber_of_nonneg (not_lt.mp hneg), ← hhalf]
    exact nearest_le (by omega) (hhalf.symm ▸ h)

/-! ## Sums that are rounded -/

/-- What is lost when the numbers are added one after another and each sum is rounded. -/
def lost : ℚ → List ℚ → ℚ
  | _, [] => 0
  | sum, y :: l => sum + y - toNumber (sum + y) + lost (toNumber (sum + y)) l

theorem foldl_add_lost (sum : ℚ) (l : List ℚ) :
    l.foldl (fun sum y => toNumber (sum + y)) sum + lost sum l = sum + l.sum := by
  induction l generalizing sum with
  | nil => rfl
  | cons y l ih =>
      rw [List.foldl_cons, lost, List.sum_cons, ← add_assoc, ← add_assoc]
      have hrest := ih (toNumber (sum + y))
      linarith

end Doubles
end Library
end UniqysKit
