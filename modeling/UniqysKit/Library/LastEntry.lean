import Mathlib.Algebra.BigOperators.Group.Finset.Basic
import Mathlib.Algebra.Order.BigOperators.Group.Finset
import Mathlib.Algebra.Order.Monoid.Defs
import Mathlib.Data.Finset.Dedup
import Mathlib.Tactic.Common

/-!
# Lists of entries where the last one for a key counts

A table that is built from a list keeps of several entries for a key the last one.  The sum over the
list counts the others as well: `sum_entries` splits it into what the table holds and what was
overwritten.
-/

namespace UniqysKit
namespace Library

open Finset

variable {K M : Type} [DecidableEq K]

/-- What a table that is built from the list holds at a key. -/
def lastEntry : List (K × M) → K → Option M
  | [], _ => none
  | (key, value) :: rest, k => (lastEntry rest k).or (if key = k then some value else none)

section Lookup

variable {entries : List (K × M)} {k : K}

theorem lastEntry_eq_find : lastEntry entries k =
    (entries.reverse.find? fun entry => entry.1 = k).map Prod.snd := by
  induction entries with
  | nil => rfl
  | cons entry rest ih =>
      rcases entry with ⟨key, value⟩
      rw [lastEntry, ih, List.reverse_cons, List.find?_append]
      cases rest.reverse.find? fun entry => entry.1 = k with
      | some found => rfl
      | none =>
          by_cases hkey : key = k
          · simp [hkey]
          · simp [hkey]

theorem lastEntry_eq_none : lastEntry entries k = none ↔ k ∉ entries.map Prod.fst := by
  induction entries with
  | nil => simp [lastEntry]
  | cons entry rest ih =>
      rcases entry with ⟨key, value⟩
      simp only [lastEntry, Option.or_eq_none_iff, ih, List.map_cons, List.mem_cons, not_or,
        ite_eq_right_iff, reduceCtorEq, imp_false]
      rw [and_comm, eq_comm]

/-- An earlier entry for the key does not matter. -/
theorem lastEntry_cons_of_mem {entry : K × M} (h : k ∈ entries.map Prod.fst) :
    lastEntry (entry :: entries) k = lastEntry entries k := by
  cases hlast : lastEntry entries k with
  | none => exact absurd h (lastEntry_eq_none.mp hlast)
  | some value => rw [lastEntry, hlast, Option.some_or]

theorem lastEntry_cons_of_not_mem {entry : K × M} (h : k ∉ entries.map Prod.fst) :
    lastEntry (entry :: entries) k = if entry.1 = k then some entry.2 else none := by
  rw [lastEntry, lastEntry_eq_none.mpr h, Option.none_or]

theorem lastEntry_cons_of_ne {entry : K × M} (h : entry.1 ≠ k) :
    lastEntry (entry :: entries) k = lastEntry entries k := by
  rw [lastEntry, if_neg h, Option.or_none]

/-- Where no key comes twice, each entry is the last one for its key. -/
theorem lastEntry_of_mem (hnodup : (entries.map Prod.fst).Nodup) {value : M}
    (h : (k, value) ∈ entries) : lastEntry entries k = some value := by
  induction entries with
  | nil => cases h
  | cons entry rest ih =>
      rcases List.nodup_cons.mp hnodup with ⟨hnotmem, hrest⟩
      rcases List.mem_cons.mp h with rfl | hmem
      · rw [lastEntry_cons_of_not_mem hnotmem, if_pos rfl]
      · rw [lastEntry_cons_of_mem (List.mem_map_of_mem hmem), ih hrest hmem]

theorem lastEntry_map_snd {N : Type} (f : M → N) (entries : List (K × M)) (k : K) :
    lastEntry (entries.map fun entry => (entry.1, f entry.2)) k = (lastEntry entries k).map f := by
  induction entries with
  | nil => rfl
  | cons entry rest ih =>
      rw [List.map_cons, lastEntry, lastEntry, ih, Option.map_or]
      split
      · rfl
      · rfl

end Lookup

/-! ## Tables that are built in steps -/

section Steps

variable {ι σ K' M' N : Type} [DecidableEq K']

/-- What one step that may add an entry adds at a key. -/
def entryAt (entry : Option (K × M)) (k : K) : Option M :=
  match entry with
  | some (key, value) => if key = k then some value else none
  | none => none

theorem lastEntry_filterMap_cons (entry : ι → Option (K × M)) (i : ι) (l : List ι) (k : K) :
    lastEntry ((i :: l).filterMap entry) k =
      (lastEntry (l.filterMap entry) k).or (entryAt (entry i) k) := by
  cases h : entry i with
  | none => rw [List.filterMap_cons_none h, entryAt, Option.or_none]
  | some pair => rw [List.filterMap_cons_some h, lastEntry, entryAt]

/-- A place that each step overwrites with its entry for the key, or leaves as it is. -/
theorem foldl_eq_lastEntry (step : σ → ι → σ) (place : σ → Option M) {entry : ι → Option (K × M)}
    {k : K} (h : ∀ s i, place (step s i) = (entryAt (entry i) k).or (place s)) (l : List ι) (s : σ) :
    place (l.foldl step s) = (lastEntry (l.filterMap entry) k).or (place s) := by
  induction l generalizing s with
  | nil => rfl
  | cons i l ih => rw [List.foldl_cons, ih, h, lastEntry_filterMap_cons, Option.or_assoc]

theorem foldl_eq_lastEntry_of_none {step : σ → ι → σ} (place : σ → Option M)
    {entry : ι → Option (K × M)} {k : K}
    (h : ∀ s i, place (step s i) = (entryAt (entry i) k).or (place s)) (l : List ι) {s : σ}
    (hs : place s = none) : place (l.foldl step s) = lastEntry (l.filterMap entry) k := by
  rw [foldl_eq_lastEntry step place h, hs, Option.or_none]

/-- Two tables of which each step adds the same to one place of the one and of the other. -/
theorem lastEntry_congr {entry : ι → Option (K × M)} {entry' : ι → Option (K' × M')} {k : K} {k' : K'}
    {f : M → N} {f' : M' → N}
    (h : ∀ i, (entryAt (entry i) k).map f = (entryAt (entry' i) k').map f') (l : List ι) :
    (lastEntry (l.filterMap entry) k).map f = (lastEntry (l.filterMap entry') k').map f' := by
  induction l with
  | nil => rfl
  | cons i l ih =>
      rw [lastEntry_filterMap_cons, lastEntry_filterMap_cons, Option.map_or, Option.map_or, ih, h]

end Steps

/-! ## The sum -/

section Sum

variable [AddCommMonoid M] {entries : List (K × M)}

/-- The sum of the entries that a later one for the same key overwrites. -/
def overwritten : List (K × M) → M
  | [] => 0
  | (key, value) :: rest => (if key ∈ rest.map Prod.fst then value else 0) + overwritten rest

/-- What the table holds altogether. -/
def heldSum (entries : List (K × M)) : M :=
  ∑ k ∈ (entries.map Prod.fst).toFinset, (lastEntry entries k).getD 0

theorem heldSum_cons_of_mem {key : K} {value : M} (h : key ∈ entries.map Prod.fst) :
    heldSum ((key, value) :: entries) = heldSum entries := by
  have hkeys : (((key, value) :: entries).map Prod.fst).toFinset =
      (entries.map Prod.fst).toFinset := by
    rw [List.map_cons, List.toFinset_cons, insert_eq_of_mem (List.mem_toFinset.mpr h)]
  rw [heldSum, hkeys]
  refine sum_congr rfl ?_
  intro k hk
  rw [lastEntry_cons_of_mem (List.mem_toFinset.mp hk)]

theorem heldSum_cons_of_not_mem {key : K} {value : M} (h : key ∉ entries.map Prod.fst) :
    heldSum ((key, value) :: entries) = value + heldSum entries := by
  rw [heldSum, List.map_cons, List.toFinset_cons, sum_insert (fun hmem =>
    h (List.mem_toFinset.mp hmem)), lastEntry_cons_of_not_mem h, if_pos rfl, Option.getD_some]
  congr 1
  refine sum_congr rfl ?_
  intro k hk
  -- a key that is new leaves the others alone
  have hne : key ≠ k := fun heq => h (heq ▸ List.mem_toFinset.mp hk)
  rw [lastEntry_cons_of_ne hne]

/-- The sum over the list counts what the table holds and what was overwritten. -/
theorem sum_entries (entries : List (K × M)) :
    (entries.map Prod.snd).sum = heldSum entries + overwritten entries := by
  induction entries with
  | nil => simp [heldSum, overwritten]
  | cons entry rest ih =>
      rcases entry with ⟨key, value⟩
      calc
        (((key, value) :: rest).map Prod.snd).sum
            = value + (heldSum rest + overwritten rest) := by
              rw [List.map_cons, List.sum_cons, ih]
        _ = heldSum ((key, value) :: rest) + overwritten ((key, value) :: rest) := by
              rw [overwritten]
              -- an entry adds to what was overwritten or to what is held, and never to both
              by_cases hmem : key ∈ rest.map Prod.fst
              · rw [heldSum_cons_of_mem hmem, if_pos hmem, add_left_comm]
              · rw [heldSum_cons_of_not_mem hmem, if_neg hmem, zero_add, add_assoc]

/-- Each entry is worth nothing exactly if a later one overwrites it. -/
def CountedOnce : List (K × M) → Prop
  | [] => True
  | (key, value) :: rest => (value = 0 ↔ key ∈ rest.map Prod.fst) ∧ CountedOnce rest

instance decidableCountedOnce [DecidableEq M] :
    (entries : List (K × M)) → Decidable (CountedOnce entries)
  | [] => isTrue trivial
  | (_, _) :: rest =>
      have := decidableCountedOnce rest
      inferInstanceAs (Decidable (_ ∧ _))

/-- The table holds no zero with one more entry in front: the entry is overwritten or not zero. -/
theorem lastEntry_cons_ne_zero_iff {key : K} {value : M} :
    (∀ k, lastEntry ((key, value) :: entries) k ≠ some 0) ↔
      (key ∉ entries.map Prod.fst → value ≠ 0) ∧ ∀ k, lastEntry entries k ≠ some 0 := by
  constructor
  · intro h
    refine ⟨?_, ?_⟩
    · intro hnotmem hzero
      refine h key ?_
      rw [lastEntry_cons_of_not_mem hnotmem, if_pos rfl, hzero]
    · intro k hlast
      refine h k ?_
      rw [lastEntry, hlast, Option.some_or]
  · rintro ⟨hfirst, hrest⟩ k
    by_cases hmem : k ∈ entries.map Prod.fst
    · rw [lastEntry_cons_of_mem hmem]
      exact hrest k
    · rw [lastEntry_cons_of_not_mem hmem]
      split
      · rename_i hkey
        subst hkey
        exact fun hsome => hfirst hmem (Option.some.inj hsome)
      · exact nofun

end Sum

section Order

variable [AddCommMonoid M] [PartialOrder M] [IsOrderedCancelAddMonoid M] {entries : List (K × M)}

theorem overwritten_nonneg (h : ∀ entry ∈ entries, 0 ≤ entry.2) : 0 ≤ overwritten entries := by
  induction entries with
  | nil => exact le_rfl
  | cons entry rest ih =>
      rcases entry with ⟨key, value⟩
      rcases List.forall_mem_cons.mp h with ⟨hvalue, hrest⟩
      refine add_nonneg ?_ (ih hrest)
      split
      · exact hvalue
      · exact le_rfl

/-- Of no set of keys does the table hold more than the sum. -/
theorem sum_lastEntry_le (h : ∀ entry ∈ entries, 0 ≤ entry.2) (keys : Finset K) :
    ∑ k ∈ keys, (lastEntry entries k).getD 0 ≤ (entries.map Prod.snd).sum := by
  have hnonneg : ∀ k, 0 ≤ (lastEntry entries k).getD 0 := by
    intro k
    rw [lastEntry_eq_find]
    cases hfind : entries.reverse.find? fun entry => entry.1 = k with
    | none => exact le_rfl
    | some entry => exact h entry (List.mem_reverse.mp (List.mem_of_find?_eq_some hfind))
  calc
    ∑ k ∈ keys, (lastEntry entries k).getD 0
        ≤ ∑ k ∈ keys ∪ (entries.map Prod.fst).toFinset, (lastEntry entries k).getD 0 :=
          sum_le_sum_of_subset_of_nonneg subset_union_left fun k _ _ => hnonneg k
    _ = heldSum entries := by
          -- the table holds nothing at other keys
          refine (sum_subset subset_union_right ?_).symm
          intro k _ hk
          rw [lastEntry_eq_none.mpr fun hmem => hk (List.mem_toFinset.mpr hmem), Option.getD_none]
    _ ≤ heldSum entries + overwritten entries := le_add_of_nonneg_right (overwritten_nonneg h)
    _ = (entries.map Prod.snd).sum := (sum_entries entries).symm

theorem heldSum_eq_sum_iff : (entries.map Prod.snd).sum = heldSum entries ↔
    overwritten entries = 0 := by
  rw [sum_entries, add_eq_left]

/-- With entries that are not negative: the sum is what the table holds, and the table holds nothing
that is worth nothing, exactly if each entry counts once. -/
theorem countedOnce_iff (h : ∀ entry ∈ entries, 0 ≤ entry.2) :
    (entries.map Prod.snd).sum = heldSum entries ∧ (∀ k, lastEntry entries k ≠ some 0) ↔
      CountedOnce entries := by
  rw [heldSum_eq_sum_iff]
  induction entries with
  | nil => simp [overwritten, lastEntry, CountedOnce]
  | cons entry rest ih =>
      rcases entry with ⟨key, value⟩
      rcases List.forall_mem_cons.mp h with ⟨hvalue, hrest⟩
      have hrest' := overwritten_nonneg hrest
      rw [lastEntry_cons_ne_zero_iff, CountedOnce, ← ih hrest, overwritten]
      by_cases hmem : key ∈ rest.map Prod.fst
      · -- the sum of what is overwritten is zero only if each part of it is
        rw [if_pos hmem, add_eq_zero_iff_of_nonneg hvalue hrest']
        simp only [hmem, not_true_eq_false, false_implies, true_and, iff_true]
        rw [and_assoc]
      · rw [if_neg hmem, zero_add]
        simp only [hmem, not_false_eq_true, true_implies, iff_false]
        rw [and_left_comm]

end Order

end Library
end UniqysKit
