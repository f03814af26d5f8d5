import UniqysKit.Library.WholeDoubles

/-!
# Counting with JavaScript numbers

The numbers that `parseInt` can give: `NaN`, the infinities and integers of 53 binary digits, with the
addition, `Math.min`, `Math.max` and `toString(10)` of them.
-/

namespace UniqysKit
namespace EasyFramework

open Library

/-- A number that is an integer, infinite or `NaN`. -/
inductive Number
  | nan
  | infinity (isNegative : Bool)
  | integer (n : Int)
  deriving DecidableEq, Repr

namespace Number

/-- The number nearest to an integer. -/
def nearest (n : Int) : Number :=
  let rounded := Doubles.round n.natAbs
  if rounded < 2 ^ 1024 then .integer (n.sign * rounded) else .infinity (decide (n < 0))

def neg : Number → Number
  | nan => nan
  | infinity isNegative => infinity !isNegative
  | integer n => integer (-n)

/-- The sum, with what a sum of integers is. -/
def addWith (sum : Int → Number) : Number → Number → Number
  | integer m, integer n => sum (m + n)
  | integer _, infinity isNegative => infinity isNegative
  | infinity isNegative, integer _ => infinity isNegative
  | infinity isNegative, infinity isNegative' =>
      if isNegative = isNegative' then infinity isNegative else nan
  | nan, _ => nan
  | _, nan => nan

def add : Number → Number → Number := addWith nearest

def sub (a b : Number) : Number := a.add b.neg

/-- `<`, which is never true of `NaN`. -/
def less : Number → Number → Bool
  | integer m, integer n => decide (m < n)
  | integer _, infinity isNegative => !isNegative
  | infinity isNegative, integer _ => isNegative
  | infinity isNegative, infinity isNegative' => isNegative && !isNegative'
  | nan, _ => false
  | _, nan => false

/-- `Math.min`. -/
def min (a b : Number) : Number := if a = nan ∨ b = nan then nan else if b.less a then b else a

/-- `Math.max`. -/
def max (a b : Number) : Number := if a = nan ∨ b = nan then nan else if a.less b then b else a

/-- The integer; where numbers are compared and nothing else, an infinity is like an integer that no
other number reaches. -/
def toInt : Number → Int
  | nan => 0
  | infinity isNegative => if isNegative then -(2 ^ 1024) else 2 ^ 1024
  | integer n => n

/-- The sum as it is, not rounded. -/
def exactSum : Number → Number → Number := addWith integer

/-- The difference as it is. -/
def exactDifference (a b : Number) : Number := a.exactSum b.neg

def rounded : Number → Number
  | integer n => nearest n
  | n => n

/-! ## Text -/

/-- The digits and the number of zeros behind them, if `count` digits are enough to tell the number
apart. -/
def digitsOf (n count : Nat) : Option (Nat × Nat) :=
  let zeros := (Nat.toDigits 10 n).length - count
  let below := n / 10 ^ zeros
  let near := Doubles.divNearest n (10 ^ zeros)
  let far := if near = below then below + 1 else below
  ([near, far].find? fun digits => Doubles.round (digits * 10 ^ zeros) = n).map fun digits =>
    if digits = 10 ^ count then (1, count + zeros) else (digits, zeros)

/-- As few digits as possible, of which 17 are enough for any number. -/
def shortest (n : Nat) : Nat × Nat := ((List.range' 1 17).findSome? (digitsOf n)).getD (n, 0)

def natToText (n : Nat) : List Char :=
  if n < 2 ^ 53 then Nat.toDigits 10 n
  else
    let (significand, zeros) := shortest n
    let digits := Nat.toDigits 10 significand
    if digits.length + zeros ≤ 21 then digits ++ List.replicate zeros '0'
    else
      let fraction := if digits.tail = [] then [] else '.' :: digits.tail
      digits.take 1 ++ fraction ++ 'e' :: '+' :: Nat.toDigits 10 (digits.length + zeros - 1)

/-- `toString(10)`. -/
def toText : Number → List Char
  | nan => "NaN".toList
  | infinity isNegative => (if isNegative then ['-'] else []) ++ "Infinity".toList
  | integer n => (if n < 0 then ['-'] else []) ++ natToText n.natAbs

example : (nearest (2 ^ 60)).toText = "1152921504606847000".toList ∧
    (nearest (10 ^ 23)).toText = "1e+23".toList ∧
    (nearest (-(2 ^ 80))).toText = "-1.2089258196146292e+24".toList ∧
    nearest (10 ^ 400) = infinity false := by
  decide +kernel

/-! ### Length -/

section Length

variable {n : Nat}

theorem length_toDigits_le {count : Nat} (hcount : 0 < count) (h : n < 10 ^ count) :
    (Nat.toDigits 10 n).length ≤ count :=
  (Nat.length_toDigits_le_iff (by decide) hcount).mpr h

theorem divNearest_le_succ (n : Nat) {d : Nat} (hd : 0 < d) : Doubles.divNearest n d ≤ n + 1 := by
  refine Doubles.divNearest_le hd ?_
  calc
    n ≤ n * d := Nat.le_mul_of_pos_right n hd
    _ ≤ (n + 1) * d := Nat.mul_le_mul_right d (Nat.le_succ n)

theorem digitsOf_le {count : Nat} {found : Nat × Nat} (h : digitsOf n count = some found)
    (hcount : count ≤ 17) :
    found.1 ≤ n + 1 ∧ found.2 ≤ 17 + (Nat.toDigits 10 n).length := by
  rcases Option.map_eq_some_iff.mp h with ⟨digits, hdigits, rfl⟩
  have hle : digits ≤ n + 1 := by
    have hbelow := Nat.div_le_self n (10 ^ ((Nat.toDigits 10 n).length - count))
    have hnear := divNearest_le_succ n
      (Nat.pow_pos (n := (Nat.toDigits 10 n).length - count) (by decide : 0 < 10))
    have hmem := List.mem_of_find?_eq_some hdigits
    simp only [List.mem_cons, List.not_mem_nil, or_false] at hmem
    rcases hmem with rfl | rfl
    · exact hnear
    · split
      · omega
      · omega
  split
  · exact ⟨Nat.le_add_left 1 n, by simp only; omega⟩
  · exact ⟨hle, by simp only; omega⟩

theorem shortest_le (n : Nat) :
    (shortest n).1 ≤ n + 1 ∧ (shortest n).2 ≤ 17 + (Nat.toDigits 10 n).length := by
  unfold shortest
  cases hfound : (List.range' 1 17).findSome? (digitsOf n) with
  | none => exact ⟨Nat.le_succ n, Nat.zero_le _⟩
  | some found =>
      rcases List.exists_of_findSome?_eq_some hfound with ⟨count, hmem, hcount⟩
      have hle : count ≤ 17 := by
        have hrange := List.mem_range'_1.mp hmem
        omega
      exact digitsOf_le hcount hle

theorem length_natToText (hn : n < 2 ^ 1024) : (natToText n).length ≤ 400 := by
  have hlt : n + 1 < 10 ^ 310 := lt_of_le_of_lt hn (by decide +kernel)
  have hdigits : ∀ m, m ≤ n + 1 → (Nat.toDigits 10 m).length ≤ 310 := fun m hm =>
    length_toDigits_le (by decide) (hm.trans_lt hlt)
  unfold natToText
  split
  · exact (hdigits n (Nat.le_succ n)).trans (by decide)
  · rcases shortest_le n with ⟨hsignificand, hzeros⟩
    have hlength := hdigits _ hsignificand
    have hzeros' := hzeros.trans (Nat.add_le_add_left (hdigits n (Nat.le_succ n)) 17)
    clear hn hlt hsignificand hzeros
    generalize shortest n = found at hlength hzeros' ⊢
    rcases found with ⟨significand, zeros⟩
    simp only at hlength hzeros' ⊢
    split
    · rename_i hshort
      rw [List.length_append, List.length_replicate]
      omega
    · -- the exponent has three digits at most
      have hexponent : (Nat.toDigits 10
          ((Nat.toDigits 10 significand).length + zeros - 1)).length ≤ 3 :=
        length_toDigits_le (by decide) (by omega)
      have hfraction : (if (Nat.toDigits 10 significand).tail = [] then []
          else '.' :: (Nat.toDigits 10 significand).tail).length ≤ 310 + 1 := by
        split
        · exact Nat.zero_le _
        · rw [List.length_cons, List.length_tail]
          omega
      simp only [List.length_append, List.length_cons, List.length_take]
      omega

end Length

/-- No integer of 1024 binary digits or more. -/
def Bounded (a : Number) : Prop := ∀ n, a = integer n → n.natAbs < 2 ^ 1024

section Bounds

variable {a b : Number} {n : Int}

theorem length_toText (h : a.Bounded) : a.toText.length ≤ 401 := by
  cases a with
  | nan => decide
  | infinity isNegative => cases isNegative <;> decide
  | integer n =>
      have hlength := length_natToText (h n rfl)
      rw [toText, List.length_append]
      split
      · rw [List.length_singleton]
        omega
      · rw [List.length_nil]
        omega

theorem bounded_nearest (n : Int) : (nearest n).Bounded := by
  intro m h
  unfold nearest at h
  simp only at h
  split at h
  · rename_i hlt
    cases h
    have hsign : n.sign.natAbs ≤ 1 := by
      rw [Int.natAbs_sign]
      split <;> omega
    calc
      (n.sign * (Doubles.round n.natAbs : Int)).natAbs
          = n.sign.natAbs * Doubles.round n.natAbs := by rw [Int.natAbs_mul, Int.natAbs_natCast]
      _ ≤ 1 * Doubles.round n.natAbs := Nat.mul_le_mul_right _ hsign
      _ < 2 ^ 1024 := by rwa [Nat.one_mul]
  · cases h

theorem bounded_add (a b : Number) : (a.add b).Bounded := by
  intro n h
  cases a with
  | nan => cases h
  | infinity isNegative =>
      cases b with
      | nan => cases h
      | infinity isNegative' =>
          simp only [add, addWith] at h
          split at h
          · cases h
          · cases h
      | integer _ => cases h
  | integer m =>
      cases b with
      | nan => cases h
      | infinity _ => cases h
      | integer m' => exact bounded_nearest (m + m') n h

theorem add_eq_rounded (a b : Number) : a.add b = (a.exactSum b).rounded := by
  unfold add exactSum
  cases a with
  | nan => simp only [addWith, rounded]
  | integer m => cases b <;> simp only [addWith, rounded]
  | infinity isNegative =>
      cases b with
      | nan => simp only [addWith, rounded]
      | integer m => simp only [addWith, rounded]
      | infinity isNegative' =>
          simp only [addWith]
          split
          · simp only [rounded]
          · simp only [rounded]

theorem exactSum_ne_nan (hb : b ≠ nan) : (integer n).exactSum b ≠ nan := by
  cases b with
  | nan => exact absurd rfl hb
  | integer m => exact nofun
  | infinity isNegative => exact nofun

theorem neg_ne_nan (ha : a ≠ nan) : a.neg ≠ nan := by
  cases a with
  | nan => exact absurd rfl ha
  | integer m => exact nofun
  | infinity isNegative => exact nofun

theorem Bounded.min (ha : a.Bounded) (hb : b.Bounded) : (a.min b).Bounded := by
  unfold Number.min
  split
  · exact fun _ h => nomatch h
  · split
    · exact hb
    · exact ha

theorem Bounded.max (ha : a.Bounded) (hb : b.Bounded) : (a.max b).Bounded := by
  unfold Number.max
  split
  · exact fun _ h => nomatch h
  · split
    · exact hb
    · exact ha

/-- Rounding does not bring an integer past another one of 53 digits. -/
theorem sign_mul_round_lt_iff {m : Int} (h : m.natAbs < 2 ^ 53) :
    n.sign * Doubles.round n.natAbs < m ↔ n < m := by
  have hsame := Doubles.round_of_lt h
  have hlt : Doubles.round n.natAbs < m.natAbs ↔ n.natAbs < m.natAbs := by
    constructor
    · intro hround
      rw [← hsame] at hround
      exact Doubles.lt_of_round_lt hround
    · intro hlt'
      rwa [Doubles.round_of_lt (hlt'.trans h)]
  have hgt := Doubles.round_lt_iff (n := n.natAbs) h
  rw [hsame] at hgt
  rcases lt_trichotomy n 0 with hneg | rfl | hpos
  · rw [Int.sign_eq_neg_one_of_neg hneg]
    omega
  · simp
  · rw [Int.sign_eq_one_of_pos hpos]
    omega

theorem lt_sign_mul_round_iff {m : Int} (h : m.natAbs < 2 ^ 53) :
    m < n.sign * Doubles.round n.natAbs ↔ m < n := by
  have hneg := sign_mul_round_lt_iff (n := -n) (m := -m) (by rwa [Int.natAbs_neg])
  rw [Int.sign_neg, Int.natAbs_neg, neg_mul, neg_lt_neg_iff, neg_lt_neg_iff] at hneg
  exact hneg

theorem nearest_eq (n : Int) : nearest n = integer (n.sign * Doubles.round n.natAbs) ∨
    nearest n = infinity (decide (n < 0)) ∧ 2 ^ 1024 ≤ Doubles.round n.natAbs := by
  unfold nearest
  simp only
  split
  · exact .inl rfl
  · rename_i h
    exact .inr ⟨rfl, not_lt.mp h⟩

/-- An integer that rounds to an infinity has many digits. -/
theorem le_natAbs_of_round (h : 2 ^ 1024 ≤ Doubles.round n.natAbs) : 2 ^ 53 ≤ n.natAbs := by
  by_contra hlt
  rw [Doubles.round_of_lt (not_le.mp hlt)] at h
  exact hlt (le_trans (by decide +kernel) h)

theorem less_nearest {m : Int} (h : m.natAbs < 2 ^ 53) : (integer m).less (nearest n) = decide (m < n) := by
  rcases nearest_eq n with heq | ⟨heq, hround⟩
  · rw [heq, less, decide_eq_decide]
    exact lt_sign_mul_round_iff h
  · have hmany := le_natAbs_of_round hround
    rw [heq, less, ← decide_not, decide_eq_decide]
    clear heq hround
    omega

theorem nearest_less {m : Int} (h : m.natAbs < 2 ^ 53) : (nearest n).less (integer m) = decide (n < m) := by
  rcases nearest_eq n with heq | ⟨heq, hround⟩
  · rw [heq, less, decide_eq_decide]
    exact sign_mul_round_lt_iff h
  · have hmany := le_natAbs_of_round hround
    rw [heq, less, decide_eq_decide]
    clear heq hround
    omega

theorem nearest_ne_nan (n : Int) : nearest n ≠ nan := by
  rcases nearest_eq n with heq | ⟨heq, -⟩
  · rw [heq]
    exact nofun
  · rw [heq]
    exact nofun

/-- Integers of 53 digits are numbers. -/
theorem nearest_of_lt (h : n.natAbs < 2 ^ 53) : nearest n = integer n := by
  have hround := Doubles.round_of_lt h
  unfold nearest
  simp only [hround]
  rw [if_pos (h.trans (by decide +kernel)), Int.sign_mul_natAbs]

end Bounds

end Number

end EasyFramework
end UniqysKit
