import Mathlib.Data.Multiset.Filter
import Mathlib.Data.Multiset.Range
import Mathlib.Tactic.Common

/-!
# Arrays as functions

An array as the function that reads it, its first entries as a multiset, and the exchange of two
entries.
-/

namespace UniqysKit
namespace Library
namespace Slots

variable {α : Type} {a : Nat → α} {n i j : Nat}

/-- The array with two of its entries exchanged. -/
def swap (a : Nat → α) (i j : Nat) : Nat → α :=
  Function.update (Function.update a i (a j)) j (a i)

@[simp] theorem swap_right : swap a i j j = a i := by
  simp [swap]

@[simp] theorem swap_left : swap a i j i = a j := by
  by_cases h : i = j
  · rw [h, swap_right]
  · simp [swap, h]

theorem swap_other {k : Nat} (hi : k ≠ i) (hj : k ≠ j) : swap a i j k = a k := by
  simp [swap, hi, hj]

/-- The first `n` entries. -/
def entries (a : Nat → α) (n : Nat) : Multiset α :=
  (Multiset.range n).map a

theorem entries_succ : entries a (n + 1) = a n ::ₘ entries a n := by
  simp [entries, Multiset.range_succ]

theorem entries_congr {b : Nat → α} (h : ∀ k < n, b k = a k) : entries b n = entries a n :=
  Multiset.map_congr rfl fun k hk => h k (Multiset.mem_range.mp hk)

theorem map_swap_range (hi : i < n) (hj : j < n) :
    (Multiset.range n).map (Equiv.swap i j) = Multiset.range n := by
  have hlt : ∀ k < n, Equiv.swap i j k < n := by
    intro k hk
    rw [Equiv.swap_apply_def]
    split_ifs
    · exact hj
    · exact hi
    · exact hk
  have hnodup := (Multiset.nodup_range n).map (Equiv.swap i j).injective
  refine (Multiset.Nodup.ext hnodup (Multiset.nodup_range n)).mpr ?_
  intro k
  simp only [Multiset.mem_map, Multiset.mem_range]
  constructor
  · rintro ⟨m, hm, rfl⟩
    exact hlt m hm
  · intro hk
    exact ⟨Equiv.swap i j k, hlt k hk, Equiv.swap_apply_self i j k⟩

/-- An exchange among the first entries leaves what they are. -/
theorem entries_swap (hi : i < n) (hj : j < n) : entries (swap a i j) n = entries a n := by
  have hswap : swap a i j = a ∘ Equiv.swap i j := by
    funext k
    by_cases hki : k = i
    · simp [hki]
    · by_cases hkj : k = j
      · simp [hkj]
      · rw [swap_other hki hkj, Function.comp_apply, Equiv.swap_apply_of_ne_of_ne hki hkj]
  calc
    entries (swap a i j) n
        = ((Multiset.range n).map (Equiv.swap i j)).map a := by
          rw [entries, hswap, Multiset.map_map]
    _ = entries a n := by rw [map_swap_range hi hj, entries]

theorem entries_mono {m : Nat} (h : m ≤ n) : entries a m ≤ entries a n := by
  refine Multiset.map_le_map ?_
  refine (Multiset.le_iff_subset (Multiset.nodup_range m)).mpr ?_
  intro k hk
  rw [Multiset.mem_range] at hk ⊢
  omega

/-- The entries of an array that is a list. -/
theorem entries_getElem? {β : Type} (l : List β) :
    entries (fun i => l[i]?) l.length = (l.map some : List (Option β)) := by
  have hlist : (List.range l.length).map (fun i => l[i]?) = l.map some := by
    refine List.ext_getElem (by simp) ?_
    intro i hi hi'
    simp only [List.length_map, List.length_range] at hi
    simp [List.getElem?_eq_getElem hi]
  rw [← hlist]
  rfl

end Slots
end Library
end UniqysKit
