import Mathlib.Data.List.Induction
import UniqysKit.Library.Doubles

/-!
# Natural numbers with 53 binary digits

Sums and products of natural numbers, each rounded to the nearest double.  Rounding keeps the order
and changes nothing up to `2 ^ 53`, so what is at most that is added and compared exactly.
-/

namespace UniqysKit
namespace Library
namespace Doubles

variable {m n : Nat} {l : List Nat}

/-! ## Rounding -/

/-- The nearest natural number to a quotient, and from the middle the even one. -/
def divNearest (n d : Nat) : Nat :=
  if d < n % d * 2 ∨ n % d * 2 = d ∧ n / d % 2 = 1 then n / d + 1 else n / d

/-- The unit in the last place. -/
def place (n : Nat) : Nat := 2 ^ (Nat.log2 n - 52)

def round (n : Nat) : Nat := divNearest n (place n) * place n

def add (m n : Nat) : Nat := round (m + n)

def mul (m n : Nat) : Nat := round (m * n)

/-- What a loop over the numbers adds up. -/
def sum (l : List Nat) : Nat := l.foldl add 0

theorem place_pos (n : Nat) : 0 < place n := Nat.two_pow_pos _

theorem divNearest_le {d k : Nat} (hd : 0 < d) (h : n ≤ k * d) : divNearest n d ≤ k := by
  have hle : n / d ≤ k := (Nat.div_le_iff_le_mul hd).mpr (by omega)
  rw [divNearest]
  split_ifs with hup
  · -- a quotient without remainder is not rounded up
    have hne : n / d ≠ k := by
      intro heq
      have hmod := Nat.div_add_mod n d
      rw [heq, Nat.mul_comm] at hmod
      omega
    omega
  · exact hle

theorem le_divNearest {d k : Nat} (hd : 0 < d) (h : k * d ≤ n) : k ≤ divNearest n d := by
  have hle : k ≤ n / d := (Nat.le_div_iff_mul_le hd).mpr h
  rw [divNearest]
  split_ifs
  · omega
  · exact hle

theorem divNearest_mono {d : Nat} (hd : 0 < d) (h : m ≤ n) : divNearest m d ≤ divNearest n d := by
  rcases Nat.eq_or_lt_of_le (Nat.div_le_div_right (c := d) h) with heq | hlt
  · -- the same quotient and no smaller remainder
    have hm := Nat.div_add_mod m d
    have hn := Nat.div_add_mod n d
    rw [heq] at hm
    have hmod : m % d ≤ n % d := by omega
    rw [divNearest, divNearest, heq]
    split_ifs with hup hup'
    · exact Nat.le_refl _
    · omega
    · omega
    · exact Nat.le_refl _
  · have hup : divNearest m d ≤ m / d + 1 := by
      rw [divNearest]
      split_ifs <;> omega
    have hdown : n / d ≤ divNearest n d := le_divNearest hd (Nat.div_mul_le_self n d)
    omega

/-- Powers of two are kept as bounds from above. -/
theorem round_le_pow {k : Nat} (h : n ≤ 2 ^ k) : round n ≤ 2 ^ k := by
  have hplace : place n ≤ 2 ^ k := by
    refine Nat.pow_le_pow_right Nat.two_pos ?_
    have hlog : Nat.log2 n ≤ k := by
      by_cases hzero : n = 0
      · rw [hzero, Nat.log2_zero]
        exact Nat.zero_le k
      · have hself := Nat.log2_self_le hzero
        exact (Nat.pow_le_pow_iff_right Nat.one_lt_two).mp (hself.trans h)
    omega
  have hexp : n.log2 - 52 ≤ k := (Nat.pow_le_pow_iff_right Nat.one_lt_two).mp hplace
  have hmul : 2 ^ k = 2 ^ (k - (n.log2 - 52)) * place n := by
    rw [place, ← Nat.pow_add]
    congr 1
    omega
  rw [round, hmul]
  exact Nat.mul_le_mul_right _ (divNearest_le (place_pos n) (hmul ▸ h))

/-- Powers of two are kept as bounds from below. -/
theorem pow_le_round {k : Nat} (h : 2 ^ k ≤ n) : 2 ^ k ≤ round n := by
  have hpos : n ≠ 0 := by
    have htwo := Nat.two_pow_pos k
    omega
  have hlog : k ≤ Nat.log2 n := (Nat.le_log2 hpos).mpr h
  have hmul : 2 ^ n.log2 = 2 ^ (n.log2 - (n.log2 - 52)) * place n := by
    rw [place, ← Nat.pow_add]
    congr 1
    omega
  have hself := Nat.log2_self_le hpos
  calc
    2 ^ k ≤ 2 ^ n.log2 := Nat.pow_le_pow_right Nat.two_pos hlog
    _ = 2 ^ (n.log2 - (n.log2 - 52)) * place n := hmul
    _ ≤ round n := Nat.mul_le_mul_right _ (le_divNearest (place_pos n) (hmul ▸ hself))

theorem round_mono (h : m ≤ n) : round m ≤ round n := by
  rcases Nat.lt_trichotomy m.log2 n.log2 with hlt | heq | hgt
  · -- a power of two is between them
    by_cases hzero : n = 0
    · rw [hzero, Nat.log2_zero] at hlt
      omega
    · calc
        round m ≤ 2 ^ (m.log2 + 1) := round_le_pow (le_of_lt Nat.lt_log2_self)
        _ ≤ 2 ^ n.log2 := Nat.pow_le_pow_right Nat.two_pos hlt
        _ ≤ round n := pow_le_round (Nat.log2_self_le hzero)
  · have hplace : place m = place n := by rw [place, place, heq]
    rw [round, round, hplace]
    exact Nat.mul_le_mul_right _ (divNearest_mono (place_pos n) h)
  · by_cases hzero : m = 0
    · rw [hzero, Nat.log2_zero] at hgt
      omega
    · have hself := (Nat.log2_self_le hzero).trans h
      by_cases hzero' : n = 0
      · omega
      · have hle := (Nat.le_log2 hzero').mpr hself
        omega

/-- A number that is a multiple of its unit is not rounded. -/
theorem round_of_dvd (h : place n ∣ n) : round n = n := by
  have hmod : n % place n = 0 := Nat.mod_eq_zero_of_dvd h
  have hdiv : divNearest n (place n) = n / place n := by
    rw [divNearest, hmod, if_neg]
    have hpos := place_pos n
    omega
  rw [round, hdiv, Nat.div_mul_cancel h]

theorem round_of_lt (h : n < 2 ^ 53) : round n = n := by
  refine round_of_dvd ?_
  have hlog : n.log2 ≤ 52 := by
    by_cases hzero : n = 0
    · rw [hzero, Nat.log2_zero]
      exact Nat.zero_le _
    · exact Nat.le_of_lt_succ ((Nat.log2_lt hzero).mpr h)
  rw [place, Nat.sub_eq_zero_of_le hlog, Nat.pow_zero]
  exact Nat.one_dvd n

theorem round_of_le (h : n ≤ 2 ^ 53) : round n = n := by
  rcases Nat.eq_or_lt_of_le h with rfl | hlt
  · decide
  · exact round_of_lt hlt

/-- What has been rounded is not rounded again. -/
theorem round_round (n : Nat) : round (round n) = round n := by
  by_cases hzero : n = 0
  · rw [hzero]
    decide
  · have hlow := pow_le_round (Nat.log2_self_le hzero)
    have hhigh := round_le_pow (le_of_lt (Nat.lt_log2_self (n := n)))
    have hpos : round n ≠ 0 := by
      have htwo := Nat.two_pow_pos n.log2
      omega
    refine round_of_dvd ?_
    rcases Nat.eq_or_lt_of_le hhigh with heq | hlt
    · -- rounded up to the next power of two
      rw [heq, place, Nat.log2_two_pow]
      exact Nat.pow_dvd_pow 2 (Nat.sub_le _ _)
    · have hlog : (round n).log2 = n.log2 :=
        (Nat.log2_eq_iff hpos).mpr ⟨hlow, hlt⟩
      have hplace : place (round n) = place n := by rw [place, hlog, place]
      rw [hplace]
      exact Nat.dvd_mul_left _ _

/-- The rounding is that of doubles. -/
theorem nearest_natCast (n : Nat) : nearest (n : ℚ) = round n := by
  have hlog : Int.log 2 (n : ℚ) = n.log2 := by
    rw [Int.log_natCast, Nat.log2_eq_log_two]
  have hpos : (0 : ℚ) < place n := by exact_mod_cast place_pos n
  by_cases hbig : 52 ≤ n.log2
  · have hunit : unit (n : ℚ) = place n := by
      have hexp : exponent (n : ℚ) = ((n.log2 - 52 : ℕ) : ℤ) := by
        rw [exponent, hlog]
        omega
      rw [unit, hexp, zpow_natCast, place, Nat.cast_pow, Nat.cast_ofNat]
    have hfloor : ⌊(n : ℚ) / place n⌋ = ((n / place n : ℕ) : ℤ) := by
      rw [Rat.floor_natCast_div_natCast, Int.natCast_ediv]
    have hmod : (n : ℚ) / place n - ((n / place n : ℕ) : ℤ) = (n % place n : ℕ) / place n := by
      have hsplit : (n : ℚ) = place n * (n / place n : ℕ) + (n % place n : ℕ) := by
        exact_mod_cast (Nat.div_add_mod n (place n)).symm
      rw [Int.cast_natCast, eq_div_iff hpos.ne', sub_mul, div_mul_cancel₀ _ hpos.ne']
      linarith
    have hgt : (1 : ℚ) / 2 < (n % place n : ℕ) / place n ↔ place n < n % place n * 2 := by
      rw [div_lt_div_iff₀ two_pos hpos, one_mul]
      exact_mod_cast Iff.rfl
    have heq : ((n % place n : ℕ) / place n : ℚ) = 1 / 2 ↔ n % place n * 2 = place n := by
      rw [div_eq_div_iff hpos.ne' two_ne_zero, one_mul]
      exact_mod_cast Iff.rfl
    have hodd : ((n / place n : ℕ) : ℤ) % 2 = 1 ↔ n / place n % 2 = 1 := by omega
    rw [nearest, hunit, nearestInteger, hfloor, hmod, round, divNearest]
    simp only [gt_iff_lt, hgt, heq, hodd]
    split_ifs
    · push_cast
      rfl
    · push_cast
      rfl
  · have hlt : n < 2 ^ 53 := by
      have hself := Nat.lt_log2_self (n := n)
      exact hself.trans_le (Nat.pow_le_pow_right Nat.two_pos (by omega))
    rw [round_of_lt hlt]
    exact nearest_of_lt (k := n) (e := 0) hlt (by norm_num) (by rw [zpow_zero, mul_one])

/-! ## Comparing products -/

theorem not_lt_zero_mul (m n : Nat) : ¬ m < mul 0 n := by
  rw [mul, Nat.zero_mul]
  exact Nat.not_lt_zero m

theorem lt_of_round_lt (h : round m < round n) : m < n := by
  by_contra hle
  exact absurd (round_mono (Nat.not_lt.mp hle)) (Nat.not_le.mpr h)

/-- What is less than `2 ^ 53` is told apart from everything above. -/
theorem round_lt_iff (hm : m < 2 ^ 53) : round m < round n ↔ m < n := by
  constructor
  · exact lt_of_round_lt
  · intro hlt
    have hle := round_mono (Nat.succ_le_of_lt hlt)
    rw [round_of_le hm] at hle
    rw [round_of_lt hm]
    exact hle

/-! ## Sums -/

/-- Natural numbers are added as all numbers are. -/
theorem cast_foldl_add (l : List Nat) (sum : Nat) : ((l.foldl add sum : Nat) : ℚ) =
    (l.map Nat.cast).foldl (fun sum y => toNumber (sum + y)) (sum : ℚ) := by
  induction l generalizing sum with
  | nil => rfl
  | cons n l ih =>
      have hround : ((add sum n : Nat) : ℚ) = toNumber (sum + n) := by
        rw [← Nat.cast_add, toNumber_of_nonneg (Nat.cast_nonneg _), nearest_natCast, add]
      rw [List.foldl_cons, ih, List.map_cons, List.foldl_cons, hround]

theorem sum_append (l l' : List Nat) : sum (l ++ l') = l'.foldl add (sum l) := List.foldl_append

theorem sum_concat (l : List Nat) (n : Nat) : sum (l ++ [n]) = add (sum l) n := by
  rw [sum_append, List.foldl_cons, List.foldl_nil]

theorem round_sum (l : List Nat) : round (sum l) = sum l := by
  induction l using List.reverseRecOn with
  | nil => decide
  | append_singleton l n ih => rw [sum_concat, add, round_round]

/-- Sums do not go down. -/
theorem sum_le_add (l : List Nat) (n : Nat) : sum l ≤ add (sum l) n := by
  calc
    sum l = round (sum l) := (round_sum l).symm
    _ ≤ round (sum l + n) := round_mono (Nat.le_add_right _ _)

theorem add_zero_sum (l : List Nat) : add (sum l) 0 = sum l := round_sum l

/-- Zeros make no difference. -/
theorem sum_filter_pos (l : List Nat) : sum (l.filter (0 < ·)) = sum l := by
  induction l using List.reverseRecOn with
  | nil => rfl
  | append_singleton l n ih =>
      rw [List.filter_append, sum_concat]
      by_cases hpos : 0 < n
      · rw [List.filter_cons_of_pos (by simpa using hpos), List.filter_nil, sum_concat, ih]
      · rw [List.filter_cons_of_neg (by simpa using hpos), List.filter_nil, List.append_nil, ih,
          Nat.eq_zero_of_not_pos hpos, add_zero_sum]

/-- A sum up to `2 ^ 53` is exact. -/
theorem sum_of_le (h : l.sum ≤ 2 ^ 53) : sum l = l.sum := by
  induction l using List.reverseRecOn with
  | nil => rfl
  | append_singleton l n ih =>
      rw [List.sum_append, List.sum_singleton] at h ⊢
      rw [sum_concat, ih (by omega), add, round_of_le h]

end Doubles
end Library
end UniqysKit
