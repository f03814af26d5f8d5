import Mathlib.Order.Defs.Unbundled
import UniqysKit.Library.Slots

/-!
# Binary heaps

A binary tree that is laid out level by level in an array: the entry above position `i` is at
`parent i`.  An entry that is out of place moves up or down by exchanges with its neighbours.
`UpReady` and `DownReady` say what holds while it does, and each exchange keeps them.

Of the order only transitivity is used.
-/

namespace UniqysKit
namespace Library
namespace Heap

open Slots

variable {α : Type} {le : α → α → Prop} {a : Nat → α} {n i j child : Nat}

/-- The position above. -/
def parent (i : Nat) : Nat := (i - 1) / 2

theorem parent_lt (hi : 0 < i) : parent i < i := by
  unfold parent
  omega

theorem parent_eq_iff (hj : 0 < j) : parent j = i ↔ j = 2 * i + 1 ∨ j = 2 * i + 2 := by
  unfold parent
  omega

/-- Each of the first `n` entries is at most the one above it. -/
def Ordered (le : α → α → Prop) (a : Nat → α) (n : Nat) : Prop :=
  ∀ i, 0 < i → i < n → le (a i) (a (parent i))

/-- The entry at `i` may be too great for its place: every other entry is at most the one above it,
and what is below `i` is at most what is above `i`. -/
structure UpReady (le : α → α → Prop) (a : Nat → α) (n i : Nat) : Prop where
  lt : i < n
  others : ∀ j, 0 < j → j < n → j ≠ i → le (a j) (a (parent j))
  below : 0 < i → ∀ j, 0 < j → j < n → parent j = i → le (a j) (a (parent i))

/-- The entry at `i` may be too small for its place: every entry that is not right below `i` is at
most the one above it, and what is below `i` is at most what is above `i`. -/
structure DownReady (le : α → α → Prop) (a : Nat → α) (n i : Nat) : Prop where
  others : ∀ j, 0 < j → j < n → parent j ≠ i → le (a j) (a (parent j))
  below : 0 < i → ∀ j, 0 < j → j < n → parent j = i → le (a j) (a (parent i))

/-- No entry is above the root. -/
theorem Ordered.le_root [IsTrans α le] (h : Ordered le a n) (hi : 0 < i) (hn : i < n) :
    le (a i) (a 0) := by
  induction i using Nat.strongRecOn with
  | ind i ih =>
      have hparent := h i hi hn
      by_cases hroot : parent i = 0
      · rwa [hroot] at hparent
      · have hlt := parent_lt hi
        exact IsTrans.trans _ _ _ hparent (ih (parent i) hlt (by omega) (by omega))

theorem UpReady.ordered (h : UpReady le a n i) (hi : 0 < i → le (a i) (a (parent i))) :
    Ordered le a n := by
  intro j hj hn
  by_cases hji : j = i
  · subst hji
    exact hi hj
  · exact h.others j hj hn hji

theorem DownReady.ordered (h : DownReady le a n i)
    (hi : ∀ j, 0 < j → j < n → parent j = i → le (a j) (a i)) : Ordered le a n := by
  intro j hj hn
  by_cases hji : parent j = i
  · rw [hji]
    exact hi j hj hn hji
  · exact h.others j hj hn hji

/-- The entry moves up. -/
theorem UpReady.swap [IsTrans α le] (h : UpReady le a n i) (hi : 0 < i)
    (hle : le (a (parent i)) (a i)) :
    UpReady le (Slots.swap a i (parent i)) n (parent i) := by
  have hlt := parent_lt hi
  have hn := h.lt
  refine ⟨by omega, ?_, ?_⟩
  · intro j hj hjn hne
    by_cases hji : j = i
    · -- what was above is now below
      subst hji
      rw [swap_left, swap_right]
      exact hle
    · rw [swap_other hji hne]
      by_cases hbelow : parent j = i
      · rw [hbelow, swap_left]
        exact h.below hi j hj hjn hbelow
      · have hjparent := h.others j hj hjn hji
        -- a sibling has the entry above it now, which is at least what was there
        by_cases hsibling : parent j = parent i
        · rw [hsibling] at hjparent ⊢
          rw [swap_right]
          exact IsTrans.trans _ _ _ hjparent hle
        · rwa [swap_other hbelow hsibling]
  · intro hpos j hj hjn hparent
    -- what is now below was below the same entry before, or one above that
    have habove := h.others (parent i) hpos (by omega) (by omega)
    have hlt' := parent_lt hpos
    rw [swap_other (i := i) (k := parent (parent i)) (by omega) (by omega)]
    by_cases hji : j = i
    · subst hji
      rwa [swap_left]
    · have hjlt := parent_lt hj
      rw [swap_other hji (by omega)]
      have hjparent := h.others j hj hjn hji
      rw [hparent] at hjparent
      exact IsTrans.trans _ _ _ hjparent habove

/-- The entry moves down, and the greatest of the entries below it takes its place. -/
theorem DownReady.swap (h : DownReady le a n i) (hchild : 0 < child) (hn : child < n)
    (hparent : parent child = i) (hle : le (a i) (a child))
    (hgreatest : ∀ j, 0 < j → j < n → parent j = i → j ≠ child → le (a j) (a child)) :
    DownReady le (Slots.swap a i child) n child := by
  have hlt := parent_lt hchild
  rw [hparent] at hlt
  constructor
  · intro j hj hjn hne
    have hjlt := parent_lt hj
    by_cases hji : parent j = i
    · rw [hji, swap_left]
      by_cases hjc : j = child
      · subst hjc
        rw [swap_right]
        exact hle
      · rw [swap_other (by omega) hjc]
        exact hgreatest j hj hjn hji hjc
    · have hjparent := h.others j hj hjn hji
      rw [swap_other hji hne]
      by_cases hji' : j = i
      · -- the entry above has what moved up below it
        subst hji'
        rw [swap_left]
        exact h.below hj child hchild hn hparent
      · by_cases hjc : j = child
        · subst hjc
          exact absurd hparent hji
        · rwa [swap_other hji' hjc]
  · intro _ j hj hjn hjchild
    have hjlt := parent_lt hj
    rw [hparent, swap_left, swap_other (by omega) (by omega)]
    -- below the child was what it is above, and the child has moved up
    have hjparent := h.others j hj hjn (by omega)
    rwa [hjchild] at hjparent

end Heap
end Library
end UniqysKit
