import Mathlib.Tactic.Common

/-!
# Binary search for a lower bound

The search with both bounds in the range that is left: it ends when the bounds have crossed, and
gives the first index that is not below, or the one after the range.
-/

namespace UniqysKit
namespace Library

/-- `while (left <= right)`, with `below` asked for the middle of the range. -/
def lowerBound (below : Int → Bool) (left right : Int) : Int :=
  if left ≤ right then
    let middle := (left + right) / 2
    if below middle then lowerBound below (middle + 1) right
    else lowerBound below left (middle - 1)
  else left
termination_by (right + 1 - left).toNat
decreasing_by
  all_goals omega

section LowerBound

variable {below below' : Int → Bool} {left right : Int}

/-- In the range, what comes before an index that is below is below. -/
def DownwardClosed (below : Int → Bool) (left right : Int) : Prop :=
  ∀ i j, left ≤ i → i ≤ j → j ≤ right → below j = true → below i = true

/-- The result splits the range into what is below and what is not. -/
structure Splits (below : Int → Bool) (left right result : Int) : Prop where
  ge : left ≤ result
  le : result ≤ max left (right + 1)
  below_of_lt : ∀ i, left ≤ i → i < result → below i = true
  not_below_of_ge : ∀ i, result ≤ i → i ≤ right → ¬ below i = true

theorem lowerBound_splits (h : DownwardClosed below left right) :
    Splits below left right (lowerBound below left right) := by
  fun_induction lowerBound below left right with
  | case1 left right hle middle hbelow ih =>
      -- the middle is below, and with it everything before
      have hrest : DownwardClosed below (middle + 1) right := by
        intro i j hi hij hj
        exact h i j (by omega) hij hj
      rcases ih hrest with ⟨hge, hlt, hlow, hhigh⟩
      refine ⟨by omega, by omega, ?_, hhigh⟩
      intro i hi hresult
      by_cases hmiddle : i ≤ middle
      · exact h i middle hi hmiddle (by omega) hbelow
      · exact hlow i (by omega) hresult
  | case2 left right hle middle hbelow ih =>
      -- the middle is not below, and neither is anything after it
      have hrest : DownwardClosed below left (middle - 1) := by
        intro i j hi hij hj
        exact h i j hi hij (by omega)
      rcases ih hrest with ⟨hge, hlt, hlow, hhigh⟩
      refine ⟨hge, by omega, hlow, ?_⟩
      intro i hi hright hi'
      by_cases hmiddle : middle ≤ i
      · exact hbelow (h middle i (by omega) hmiddle hright hi')
      · exact hhigh i hi (by omega) hi'
  | case3 left right hgt =>
      refine ⟨Int.le_refl _, by omega, ?_, ?_⟩
      · intro i hi hlt
        omega
      · intro i hi hright
        omega

/-- Where more is below, the bound is no lower. -/
theorem lowerBound_mono (h : DownwardClosed below left right)
    (h' : DownwardClosed below' left right) (himp : ∀ i, below i = true → below' i = true) :
    lowerBound below left right ≤ lowerBound below' left right := by
  have hsplits := lowerBound_splits h
  have hsplits' := lowerBound_splits h'
  have hge := hsplits'.ge
  have hle := hsplits.le
  by_contra hgt
  -- the lower one of the bounds would be below and not below
  have hbelow := hsplits.below_of_lt (lowerBound below' left right) hge (by omega)
  exact hsplits'.not_below_of_ge _ (Int.le_refl _) (by omega) (himp _ hbelow)

end LowerBound

/-- The indices between two bounds, picked out of a range. -/
theorem filter_range {n first last : Nat} {p : Nat → Bool} (hlast : last ≤ n)
    (hp : ∀ i, i < n → (p i = true ↔ first ≤ i ∧ i < last)) :
    (List.range n).filter p = List.range' first (last - first) := by
  have hnone : ∀ start count, (∀ i, start ≤ i → i < start + count → ¬ p i = true) →
      (List.range' start count).filter p = [] := by
    intro start count hnot
    refine List.filter_eq_nil_iff.mpr ?_
    intro i hi
    exact hnot i (List.mem_range'_1.mp hi).1 (List.mem_range'_1.mp hi).2
  by_cases hle : first ≤ last
  · -- the range is cut at both bounds, and `p` is constant on each part
    have hsplit : List.range n = List.range' 0 first ++
        (List.range' first (last - first) ++ List.range' last (n - last)) := by
      have hmiddle : last = first + (last - first) := by omega
      have hcount : n = first + (last - first + (n - last)) := by omega
      conv_lhs => rw [List.range_eq_range', hcount, ← List.range'_append_1, ← List.range'_append_1]
      rw [Nat.zero_add, ← hmiddle]
    have hall : (List.range' first (last - first)).filter p = List.range' first (last - first) := by
      refine List.filter_eq_self.mpr ?_
      intro i hi
      rcases List.mem_range'_1.mp hi with ⟨hge, hlt⟩
      exact (hp i (by omega)).mpr ⟨hge, by omega⟩
    have hbefore : (List.range' 0 first).filter p = [] := by
      refine hnone 0 first ?_
      intro i hge hlt hi
      have hbounds := (hp i (by omega)).mp hi
      omega
    have hafter : (List.range' last (n - last)).filter p = [] := by
      refine hnone last (n - last) ?_
      intro i hge hlt hi
      have hbounds := (hp i (by omega)).mp hi
      omega
    calc
      (List.range n).filter p
          = (List.range' 0 first).filter p ++ ((List.range' first (last - first)).filter p ++
              (List.range' last (n - last)).filter p) := by
            rw [hsplit, List.filter_append, List.filter_append]
      _ = List.range' first (last - first) := by
            rw [hbefore, hall, hafter, List.nil_append, List.append_nil]
  · -- the bounds are crossed, and nothing satisfies `p`
    rw [List.range_eq_range', hnone, Nat.sub_eq_zero_of_le (by omega)]
    · rfl
    · intro i hge hlt hi
      have hbounds := (hp i (by omega)).mp hi
      omega

end Library
end UniqysKit
