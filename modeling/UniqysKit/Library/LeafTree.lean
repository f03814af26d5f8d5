import Mathlib.Tactic.Common

/-!
# Levels of binary trees

Binary trees with labels at the leaves, taken apart by depth.  `level d t` are the subtrees at depth
`d`, from left to right; `frontier d t` has in addition the leaves that are less deep, so that
nothing of the tree is missing.

In a tree that is `Slanted` the inner nodes come first on every frontier.  Then the subtrees of a
level come in pairs, in the order of their parents on the level above, and the leaves that are less
deep follow them (`Slanted.descend`).
-/

namespace UniqysKit
namespace Library

inductive LeafTree (α : Type) where
  | leaf (a : α)
  | node (left right : LeafTree α)

namespace LeafTree

variable {α : Type}

/-- The labels from left to right. -/
def leaves : LeafTree α → List α
  | leaf a => [a]
  | node left right => left.leaves ++ right.leaves

def height : LeafTree α → Nat
  | leaf _ => 0
  | node left right => max left.height right.height + 1

def level : Nat → LeafTree α → List (LeafTree α)
  | 0, t => [t]
  | _ + 1, leaf _ => []
  | d + 1, node left right => level d left ++ level d right

def frontier : Nat → LeafTree α → List (LeafTree α)
  | 0, t => [t]
  | _ + 1, leaf a => [leaf a]
  | d + 1, node left right => frontier d left ++ frontier d right

def kids : LeafTree α → List (LeafTree α)
  | leaf _ => []
  | node left right => [left, right]

/-- The subtrees one step down, where there is one. -/
def expand : LeafTree α → List (LeafTree α)
  | leaf a => [leaf a]
  | node left right => [left, right]

/-- Below the height there are only leaves left. -/
theorem frontier_height {t : LeafTree α} {d : Nat} (h : t.height ≤ d) :
    frontier d t = t.leaves.map leaf := by
  induction t generalizing d with
  | leaf a =>
      cases d with
      | zero => rfl
      | succ d => rfl
  | node left right ihl ihr =>
      cases d with
      | zero => cases h
      | succ d =>
          have hmax : max left.height right.height ≤ d := Nat.le_of_succ_le_succ h
          rw [frontier, ihl (by omega), ihr (by omega), leaves, List.map_append]

theorem level_succ (d : Nat) (t : LeafTree α) :
    level (d + 1) t = (frontier d t).flatMap kids := by
  induction d generalizing t with
  | zero =>
      cases t with
      | leaf a => rfl
      | node left right => rfl
  | succ d ih =>
      cases t with
      | leaf a => rfl
      | node left right => rw [level, frontier, List.flatMap_append, ih, ih]

theorem frontier_succ (d : Nat) (t : LeafTree α) :
    frontier (d + 1) t = (frontier d t).flatMap expand := by
  induction d generalizing t with
  | zero =>
      cases t with
      | leaf a => rfl
      | node left right => rfl
  | succ d ih =>
      cases t with
      | leaf a => rfl
      | node left right =>
          rw [frontier, ih, ih, frontier, List.flatMap_append]

/-! ## Slanted trees -/

/-- The inner nodes come before the leaves. -/
def InnerFirst (ts : List (LeafTree α)) : Prop :=
  ∃ (inner : List (LeafTree α × LeafTree α)) (rest : List α),
    ts = inner.map (fun pair => node pair.1 pair.2) ++ rest.map leaf

/-- On every frontier the inner nodes come first. -/
def Slanted (t : LeafTree α) : Prop := ∀ d, InnerFirst (frontier d t)

/-- A level, and what follows it on the frontier, from the frontier above. -/
theorem Slanted.descend {t : LeafTree α} (h : Slanted t) (d : Nat) :
    ∃ (inner : List (LeafTree α × LeafTree α)) (rest : List α),
      frontier d t = inner.map (fun pair => node pair.1 pair.2) ++ rest.map leaf ∧
      level (d + 1) t = inner.flatMap (fun pair => [pair.1, pair.2]) ∧
      frontier (d + 1) t = level (d + 1) t ++ rest.map leaf := by
  rcases h d with ⟨inner, rest, hfrontier⟩
  have hkids : level (d + 1) t = inner.flatMap fun pair => [pair.1, pair.2] := by
    rw [level_succ, hfrontier, List.flatMap_append, List.flatMap_map, List.flatMap_map]
    simp [kids]
  refine ⟨inner, rest, hfrontier, hkids, ?_⟩
  rw [hkids, frontier_succ, hfrontier, List.flatMap_append, List.flatMap_map, List.flatMap_map,
    List.map_eq_flatMap]
  rfl

/-- The inner nodes of a frontier are on its level. -/
theorem Slanted.length_inner_le {t : LeafTree α} (h : Slanted t) {d : Nat}
    {inner : List (LeafTree α × LeafTree α)} {rest : List α}
    (hfrontier : frontier d t = inner.map (fun pair => node pair.1 pair.2) ++ rest.map leaf) :
    inner.length ≤ (level d t).length := by
  cases d with
  | zero =>
      have hlength := congrArg List.length hfrontier
      simp only [frontier, List.length_append, List.length_map, List.length_singleton] at hlength
      simp only [level, List.length_singleton]
      omega
  | succ d =>
      rcases h.descend d with ⟨-, rest', -, -, hsame⟩
      by_contra hlt
      -- what comes after the level is a leaf
      have hnode : (frontier (d + 1) t)[(level (d + 1) t).length]? =
          inner[(level (d + 1) t).length]?.map fun pair => node pair.1 pair.2 := by
        rw [hfrontier, List.getElem?_append_left (by simpa using hlt), List.getElem?_map]
      rw [hsame, List.getElem?_append_right (Nat.le_refl _), Nat.sub_self, List.getElem?_map,
        List.getElem?_eq_getElem (Nat.not_le.mp hlt)] at hnode
      cases hrest : rest'[0]? with
      | none =>
          rw [hrest] at hnode
          cases hnode
      | some a =>
          rw [hrest] at hnode
          cases hnode

/-- The two subtrees of a pair, where they are on the level below. -/
theorem getElem?_pairs (inner : List (LeafTree α × LeafTree α)) (q : Nat) :
    (inner.flatMap fun pair => [pair.1, pair.2])[2 * q]? = inner[q]?.map Prod.fst ∧
      (inner.flatMap fun pair => [pair.1, pair.2])[2 * q + 1]? = inner[q]?.map Prod.snd := by
  induction inner generalizing q with
  | nil => simp
  | cons pair inner ih =>
      cases q with
      | zero => simp
      | succ q =>
          rcases ih q with ⟨hfst, hsnd⟩
          have hdouble : 2 * (q + 1) = 2 * q + 1 + 1 := by omega
          rw [hdouble]
          simpa using ⟨hfst, hsnd⟩

theorem length_pairs (inner : List (LeafTree α × LeafTree α)) :
    (inner.flatMap fun pair => [pair.1, pair.2]).length = 2 * inner.length := by
  induction inner with
  | nil => rfl
  | cons pair inner ih =>
      rw [List.flatMap_cons, List.length_append, ih, List.length_cons]
      simp only [List.length_cons, List.length_nil]
      omega

end LeafTree

end Library
end UniqysKit
