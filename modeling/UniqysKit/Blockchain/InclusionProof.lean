import Mathlib.Data.Nat.Log
import UniqysKit.Blockchain.MerkleTree
import UniqysKit.Library.LeafTree

/-!
# Inclusion proofs of Merkle trees

`MerkleTree.proof` and `MerkleTree.verify`.  `_root` fills an array with the hashes of each depth;
`proof` goes from the deepest level up, halving the index of the item, and takes the sibling on each
level.  A proof has no positions: `verify` sorts the two hashes before it hashes them.

Items can be at different depths.  On a level that is deeper than the item there is nothing to take,
and the index is halved all the same.  This is right only for the first item that is less deep than
others: for the items after it `proof` gives the proof of another one (`proof_spec`).
-/

namespace UniqysKit

open Library

namespace MerkleTree

/-! ## The levels, proofs and their verification -/

/-- `if (tree.length === depth) { tree.push([]) }`. -/
def addDepth (tree : List (List Hash)) (depth : Nat) : List (List Hash) :=
  if tree.length = depth then tree ++ [[]] else tree

/-- `tree[depth].push(hash)`. -/
def push (tree : List (List Hash)) (depth : Nat) (hash : Hash) : List (List Hash) :=
  tree.modify depth (· ++ [hash])

/-- `_root` with the array it fills, with the number of items as a bound on the depth of the
recursion. -/
def rootInto (c : Crypto) : Nat → List Hash → Nat → List (List Hash) → Hash × List (List Hash)
  | _, [], depth, tree =>
      let hash := Hash.fromData c []
      (hash, push (addDepth tree depth) depth hash)
  | _, [item], depth, tree => (item, push (addDepth tree depth) depth item)
  | 0, _ :: _ :: _, _, tree => (Hash.fromData c [], tree)
  | fuel + 1, item :: item' :: items, depth, tree =>
      let all := item :: item' :: items
      let split := splitPoint all.length
      let (left, tree) := rootInto c fuel (all.take split) (depth + 1) (addDepth tree depth)
      let (right, tree) := rootInto c fuel (all.drop split) (depth + 1) tree
      let hash := Hash.fromData c (sortedConcat left.buffer right.buffer)
      (hash, push tree depth hash)

def tree (c : Crypto) (items : List Hash) : List (List Hash) :=
  (rootInto c items.length items 0 []).2

/-- The loop of `proof`, from level `d` to level 1. An item of an array that is not there would be
pushed as `undefined`, on which `verify` throws; there is none. -/
def proofLoop (tr : List (List Hash)) : Nat → Nat → Result (List Hash)
  | 0, _ => .ok []
  | d + 1, index =>
      let level := tr.getD (d + 1) []
      -- skip depth
      if index ≥ level.length then proofLoop tr d (index / 2)
      else do
        let sibling := if index % 2 = 0 then index + 1 else index - 1
        match level[sibling]? with
        | some hash => return hash :: (← proofLoop tr d (index / 2))
        | none => .error .typeError

def proof (c : Crypto) (items : List Hash) (target : Hash) : Result (List Hash) :=
  let index := items.idxOf target
  if index = items.length then .error ⟨"target does not exist"⟩
  else
    let tr := tree c items
    proofLoop tr (tr.length - 1) index

/-- What `verify` gets from a target and a proof. -/
def climb (c : Crypto) (target : Hash) (proof : List Hash) : Hash :=
  proof.foldl (fun hash p => Hash.fromData c (sortedConcat hash.buffer p.buffer)) target

def verify (c : Crypto) (proof : List Hash) (root target : Hash) : Bool := climb c target proof = root

/-! ## The tree of a list -/

section Shape

variable (c : Crypto)

/-- The tree that `_root` goes through. -/
def shape (items : List Hash) : LeafTree Hash :=
  if _h : 2 ≤ items.length then
    .node (shape (items.take (splitPoint items.length))) (shape (items.drop (splitPoint items.length)))
  else .leaf (root c items)
  termination_by items.length
  decreasing_by
    · rw [List.length_take]
      have := splitPoint_lt _h
      omega
    · rw [List.length_drop]
      have := splitPoint_pos _h
      omega

def rootOf : LeafTree Hash → Hash
  | .leaf hash => hash
  | .node left right =>
      Hash.fromData c (sortedConcat (rootOf left).buffer (rootOf right).buffer)

/-- The buffers that are hashed for the inner nodes. -/
def innerBytes : LeafTree Hash → List Bytes
  | .leaf _ => []
  | .node left right =>
      sortedConcat (rootOf c left).buffer (rootOf c right).buffer ::
        (innerBytes left ++ innerBytes right)

/-- The buffers that `verify` hashes. -/
def climbed (target : Hash) : List Hash → List Bytes
  | [] => []
  | p :: proof =>
      sortedConcat target.buffer p.buffer ::
        climbed (Hash.fromData c (sortedConcat target.buffer p.buffer)) proof

/-- The number of hashes at a depth, for a number of items. -/
def levelSize : Nat → Nat → Nat
  | 0, _ => 1
  | d + 1, n => if n < 2 then 0 else levelSize d (splitPoint n) + levelSize d (n - splitPoint n)

/-- The number of items at the greatest depth. -/
def deepest (n : Nat) : Nat := levelSize (Nat.clog 2 n) n

variable {c}

theorem shape_of_two_le {items : List Hash} (h : 2 ≤ items.length) :
    shape c items = .node (shape c (items.take (splitPoint items.length)))
      (shape c (items.drop (splitPoint items.length))) := by
  rw [shape, dif_pos h]

theorem shape_of_lt_two {items : List Hash} (h : items.length < 2) :
    shape c items = .leaf (root c items) := by
  rw [shape, dif_neg (Nat.not_le.mpr h)]

/-- The induction over the two parts that a list is split into. -/
theorem split_induction {P : List Hash → Prop} (hsmall : ∀ items, items.length < 2 → P items)
    (hsplit : ∀ items, 2 ≤ items.length → P (items.take (splitPoint items.length)) →
      P (items.drop (splitPoint items.length)) → P items) (items : List Hash) : P items := by
  induction hn : items.length using Nat.strong_induction_on generalizing items with
  | _ n ih =>
      subst hn
      by_cases h : 2 ≤ items.length
      · have hlo := splitPoint_pos h
        have hhi := splitPoint_lt h
        refine hsplit items h (ih _ ?_ _ rfl) (ih _ ?_ _ rfl)
        · rw [List.length_take]
          omega
        · rw [List.length_drop]
          omega
      · exact hsmall items (Nat.not_le.mp h)

theorem rootOf_shape (items : List Hash) : rootOf c (shape c items) = root c items := by
  induction items using split_induction with
  | hsmall items h => rw [shape_of_lt_two h, rootOf]
  | hsplit items h ihl ihr => rw [shape_of_two_le h, rootOf, ihl, ihr, ← root_eq c h]

theorem leaves_shape {items : List Hash} (h : items ≠ []) : (shape c items).leaves = items := by
  induction items using split_induction with
  | hsmall items hlt =>
      obtain ⟨item, rfl⟩ : ∃ item, items = [item] := by
        rw [← List.length_eq_one_iff]
        have := List.length_pos_iff.mpr h
        omega
      rw [shape_of_lt_two hlt]
      rfl
  | hsplit items hle ihl ihr =>
      have hlo := splitPoint_pos hle
      have hhi := splitPoint_lt hle
      rw [shape_of_two_le hle, LeafTree.leaves, ihl, ihr, List.take_append_drop]
      · exact fun hnil => absurd (List.drop_eq_nil_iff.mp hnil) (by omega)
      · exact fun hnil => h (by simpa [Nat.ne_of_gt hlo] using List.take_eq_nil_iff.mp hnil)

theorem length_level_shape (d : Nat) (items : List Hash) :
    ((shape c items).level d).length = levelSize d items.length := by
  induction d generalizing items with
  | zero => rfl
  | succ d ih =>
      by_cases h : 2 ≤ items.length
      · have hhi := splitPoint_lt h
        rw [shape_of_two_le h, LeafTree.level, List.length_append, ih, ih, levelSize,
          if_neg (by omega), List.length_take, List.length_drop, Nat.min_eq_left (by omega)]
      · rw [shape_of_lt_two (by omega), levelSize, if_pos (by omega)]
        rfl

/-! ## Depths -/

theorem splitLoop_pow (fuel k x : Nat) : ∃ m, splitLoop fuel (2 ^ k) x = 2 ^ m := by
  induction fuel generalizing k with
  | zero => exact ⟨k, rfl⟩
  | succ fuel ih =>
      rw [splitLoop]
      split
      · rw [← pow_succ]
        exact ih (k + 1)
      · exact ⟨k, rfl⟩

/-- The list is split at the largest power of two below its length. -/
theorem splitPoint_spec {n : Nat} (h : 2 ≤ n) :
    ∃ k, splitPoint n = 2 ^ k ∧ 2 ^ k < n ∧ n ≤ 2 ^ (k + 1) := by
  rcases splitLoop_pow n 0 n with ⟨m, hm⟩
  rw [pow_zero] at hm
  have hspec := splitLoop_spec n 1 n (by omega) (by omega)
  rw [hm] at hspec
  cases m with
  | zero =>
      rw [pow_zero] at hspec
      omega
  | succ k =>
      have hhalf : splitPoint n = 2 ^ k := by
        rw [splitPoint, hm, pow_succ]
        omega
      refine ⟨k, hhalf, ?_, hspec.1⟩
      rw [← hhalf]
      exact splitPoint_lt h

/-- The lengths of the two parts. -/
theorem length_parts {items : List Hash} (h : 2 ≤ items.length) :
    ∃ k, (items.take (splitPoint items.length)).length = 2 ^ k ∧
      (items.drop (splitPoint items.length)).length ≤ 2 ^ k ∧
      2 ^ k < items.length ∧ items.length ≤ 2 ^ (k + 1) := by
  rcases splitPoint_spec h with ⟨k, hsplit, hlt, hle⟩
  refine ⟨k, ?_, ?_, hlt, hle⟩
  · rw [List.length_take, hsplit, Nat.min_eq_left hlt.le]
  · rw [List.length_drop, hsplit]
    rw [pow_succ] at hle
    omega

theorem height_shape (items : List Hash) : (shape c items).height = Nat.clog 2 items.length := by
  induction items using split_induction with
  | hsmall items h =>
      rw [shape_of_lt_two h, Nat.clog_of_right_le_one (by omega)]
      rfl
  | hsplit items h ihl ihr =>
      rcases length_parts h with ⟨k, hleft, hright, hlt, hle⟩
      have hclog : Nat.clog 2 items.length = k + 1 := by
        refine le_antisymm (Nat.clog_le_of_le_pow hle) ?_
        exact (Nat.lt_clog_iff_pow_lt Nat.one_lt_two).mpr hlt
      have hlow : Nat.clog 2 (items.drop (splitPoint items.length)).length ≤ k :=
        Nat.clog_le_of_le_pow hright
      rw [shape_of_two_le h, LeafTree.height, ihl, ihr, hleft, Nat.clog_pow 2 k Nat.one_lt_two,
        Nat.max_eq_left hlow, hclog]

/-- A list whose length is a power of two has inner nodes only, down to its items. -/
theorem frontier_full (d k : Nat) (items : List Hash) (hlength : items.length = 2 ^ k) (h : d < k) :
    ∃ inner : List (LeafTree Hash × LeafTree Hash),
      (shape c items).frontier d = inner.map fun pair => .node pair.1 pair.2 := by
  induction d generalizing k items with
  | zero =>
      have htwo : 2 ≤ items.length := by
        rw [hlength]
        exact Nat.le_self_pow (by omega) 2
      rw [shape_of_two_le htwo]
      exact ⟨[(_, _)], rfl⟩
  | succ d ih =>
      obtain ⟨k, rfl⟩ : ∃ j, k = j + 1 := ⟨k - 1, by omega⟩
      have htwo : 2 ≤ items.length := by
        rw [hlength]
        exact Nat.le_self_pow (by omega) 2
      rcases length_parts htwo with ⟨j, hleft, hright, hlt, hle⟩
      -- both parts have half of the items
      rw [hlength] at hlt hle
      have hj : j = k := by
        have hlo := (Nat.pow_lt_pow_iff_right Nat.one_lt_two).mp hlt
        have hhi := (Nat.pow_le_pow_iff_right Nat.one_lt_two).mp hle
        omega
      subst hj
      have hdrop : (items.drop (splitPoint items.length)).length = 2 ^ j := by
        have htotal := congrArg List.length (List.take_append_drop (splitPoint items.length) items)
        rw [List.length_append, hleft] at htotal
        have hdouble : items.length = 2 ^ j * 2 := by rw [hlength, pow_succ]
        omega
      rcases ih j _ hleft (by omega) with ⟨inner, hinner⟩
      rcases ih j _ hdrop (by omega) with ⟨inner', hinner'⟩
      refine ⟨inner ++ inner', ?_⟩
      rw [shape_of_two_le htwo, LeafTree.frontier, hinner, hinner', List.map_append]

theorem slanted_shape (items : List Hash) : (shape c items).Slanted := by
  induction items using split_induction with
  | hsmall items h =>
      intro d
      rw [shape_of_lt_two h]
      cases d with
      | zero => exact ⟨[], [_], rfl⟩
      | succ d => exact ⟨[], [_], rfl⟩
  | hsplit items h ihl ihr =>
      intro d
      rcases length_parts h with ⟨k, hleft, hright, -, -⟩
      rw [shape_of_two_le h]
      cases d with
      | zero => exact ⟨[(_, _)], [], rfl⟩
      | succ d =>
          -- the left part is full down to the depth `k`
          rw [LeafTree.frontier]
          by_cases hd : d < k
          · -- inner nodes only on the left
            rcases frontier_full (c := c) d k _ hleft hd with ⟨inner, hinner⟩
            rcases ihr d with ⟨inner', rest, hrest⟩
            refine ⟨inner ++ inner', rest, ?_⟩
            rw [hinner, hrest, List.map_append, List.append_assoc]
          · -- leaves only on both sides
            have hheight : ∀ part : List Hash, part.length ≤ 2 ^ k →
                (shape c part).height ≤ d := by
              intro part hpart
              rw [height_shape]
              exact (Nat.clog_le_of_le_pow hpart).trans (by omega)
            refine ⟨[], (shape c (items.take (splitPoint items.length))).leaves ++
              (shape c (items.drop (splitPoint items.length))).leaves, ?_⟩
            rw [LeafTree.frontier_height (hheight _ hleft.le),
              LeafTree.frontier_height (hheight _ hright), ← List.map_append]
            rfl

end Shape

/-! ## The array of the levels -/

section Levels

variable {c : Crypto} {t left right : LeafTree Hash} {depth : Nat} {tree tree' tree'' : List (List Hash)}

theorem getD_addDepth (j : Nat) : (addDepth tree depth).getD j [] = tree.getD j [] := by
  unfold addDepth
  split
  · rw [List.getD_eq_getElem?_getD, List.getD_eq_getElem?_getD, List.getElem?_append]
    split
    · rfl
    · rename_i hout
      rw [List.getElem?_eq_none (Nat.not_lt.mp hout)]
      cases j - tree.length with
      | zero => rfl
      | succ k => rfl
  · rfl

theorem length_addDepth (h : depth ≤ tree.length) :
    (addDepth tree depth).length = max tree.length (depth + 1) := by
  unfold addDepth
  split
  · rw [List.length_append, List.length_singleton]
    omega
  · omega

theorem getD_push (h : depth < tree.length) (hash : Hash) (j : Nat) :
    (push tree depth hash).getD j [] =
      if j = depth then tree.getD j [] ++ [hash] else tree.getD j [] := by
  rw [push, List.getD_eq_getElem?_getD, List.getElem?_modify, List.getD_eq_getElem?_getD]
  by_cases hj : j = depth
  · subst hj
    rw [if_pos rfl, List.getElem?_eq_getElem h]
    simp
  · rw [if_neg hj]
    simp [Ne.symm hj]

variable (c t depth tree tree') in
/-- The hashes of a tree were added to the array, from a depth on. -/
structure Filled : Prop where
  length : tree'.length = max tree.length (depth + t.height + 1)
  getD : ∀ j, tree'.getD j [] =
    tree.getD j [] ++ if depth ≤ j then (t.level (j - depth)).map (rootOf c) else []

theorem Filled.leaf (h : depth ≤ tree.length) (hash : Hash) :
    Filled c (.leaf hash) depth tree (push (addDepth tree depth) depth hash) := by
  have hlength := length_addDepth h
  refine ⟨?_, ?_⟩
  · rw [push, List.length_modify, hlength]
    rfl
  · intro j
    rw [getD_push (by omega), getD_addDepth]
    by_cases hj : j = depth
    · subst hj
      simp [LeafTree.level, rootOf]
    · rw [if_neg hj]
      split
      · obtain ⟨k, hk⟩ : ∃ k, j - depth = k + 1 := ⟨j - depth - 1, by omega⟩
        rw [hk]
        simp [LeafTree.level]
      · simp

/-- Both subtrees are added one step down, and then the node. -/
theorem Filled.node (h : depth ≤ tree.length)
    (hleft : Filled c left (depth + 1) (addDepth tree depth) tree')
    (hright : Filled c right (depth + 1) tree' tree'') :
    Filled c (.node left right) depth tree
      (push tree'' depth (rootOf c (.node left right))) := by
  have hlength := length_addDepth h
  have hleft' := hleft.length
  have hright' := hright.length
  refine ⟨?_, ?_⟩
  · rw [push, List.length_modify, hright', hleft', hlength, LeafTree.height]
    omega
  · intro j
    rw [getD_push (by omega), hright.getD, hleft.getD, getD_addDepth]
    -- the own level gets the root of the node, a level below it those of both children
    by_cases hj : j = depth
    · subst hj
      simp [LeafTree.level]
    · rw [if_neg hj]
      by_cases hlow : depth ≤ j
      · obtain ⟨k, hk⟩ : ∃ k, j - depth = k + 1 := ⟨j - depth - 1, by omega⟩
        have hk' : j - (depth + 1) = k := by omega
        rw [if_pos (by omega), if_pos hlow, if_pos (by omega), hk, hk', LeafTree.level,
          List.map_append, List.append_assoc]
      · rw [if_neg hlow, if_neg (by omega), if_neg (by omega)]
        simp

theorem rootInto_spec (fuel : Nat) (items : List Hash) (hfuel : items.length ≤ fuel + 1)
    (h : depth ≤ tree.length) :
    (rootInto c fuel items depth tree).1 = root c items ∧
      Filled c (shape c items) depth tree (rootInto c fuel items depth tree).2 := by
  induction fuel generalizing items depth tree with
  | zero =>
      match items, hfuel with
      | [], _ =>
          rw [shape_of_lt_two (by simp)]
          exact ⟨rfl, .leaf h _⟩
      | [item], _ =>
          rw [shape_of_lt_two (by simp)]
          exact ⟨rfl, .leaf h _⟩
  | succ fuel ih =>
      match items, hfuel with
      | [], _ =>
          rw [shape_of_lt_two (by simp)]
          exact ⟨rfl, .leaf h _⟩
      | [item], _ =>
          rw [shape_of_lt_two (by simp)]
          exact ⟨rfl, .leaf h _⟩
      | item :: item' :: items, hfuel =>
          have htwo : 2 ≤ (item :: item' :: items).length := by simp
          have hlo := splitPoint_pos htwo
          have hhi := splitPoint_lt htwo
          rw [rootInto]
          generalize item :: item' :: items = all at *
          have hadd := length_addDepth h
          -- the left half is added to the levels first, then the right one
          have hleft := ih (all.take (splitPoint all.length))
            (by rw [List.length_take]; omega) (show depth + 1 ≤ (addDepth tree depth).length by omega)
          have hright := ih (all.drop (splitPoint all.length))
            (by rw [List.length_drop]; omega)
            (show depth + 1 ≤ (rootInto c fuel (all.take (splitPoint all.length)) (depth + 1)
              (addDepth tree depth)).2.length by rw [hleft.2.length]; omega)
          simp only
          rw [hleft.1, hright.1, ← root_eq c htwo]
          refine ⟨rfl, ?_⟩
          have hnode := Filled.node h hleft.2 hright.2
          rw [← shape_of_two_le htwo, rootOf_shape] at hnode
          exact hnode

theorem length_tree (items : List Hash) : (MerkleTree.tree c items).length =
    (shape c items).height + 1 := by
  have hfilled := (rootInto_spec (c := c) items.length items (Nat.le_succ _)
    (show 0 ≤ ([] : List (List Hash)).length from le_rfl)).2
  rw [MerkleTree.tree, hfilled.length]
  simp

/-- The array has the hashes of each level. -/
theorem getD_tree (items : List Hash) (d : Nat) : (MerkleTree.tree c items).getD d [] =
    ((shape c items).level d).map (rootOf c) := by
  have hfilled := (rootInto_spec (c := c) items.length items (Nat.le_succ _)
    (show 0 ≤ ([] : List (List Hash)).length from le_rfl)).2
  rw [MerkleTree.tree, hfilled.getD]
  simp

end Levels

/-! ## What a proof proves -/

section Walk

variable {c : Crypto} {t : LeafTree Hash}

theorem sortedConcat_left_cancel {x y s : Hash}
    (h : sortedConcat x.buffer s.buffer = sortedConcat y.buffer s.buffer) : x = y := by
  have hsize : ∀ a b : Hash, a.buffer.length = b.buffer.length := fun a b => a.size.trans b.size.symm
  rcases sortedConcat_inj (hsize x y) (hsize s s) (hsize x s) h with ⟨hx, -⟩ | ⟨hx, hs⟩
  · exact Hash.ext hx
  · exact Hash.ext (hx.trans hs)

theorem mem_innerBytes {d : Nat} {left right : LeafTree Hash}
    (h : .node left right ∈ t.frontier d) :
    sortedConcat (rootOf c left).buffer (rootOf c right).buffer ∈ innerBytes c t := by
  induction d generalizing t with
  | zero =>
      rw [← List.mem_singleton.mp h]
      exact List.mem_cons_self
  | succ d ih =>
      cases t with
      | leaf hash => cases List.mem_singleton.mp h
      | node left' right' =>
          refine List.mem_cons_of_mem _ ?_
          rcases List.mem_append.mp h with hleft | hright
          · exact List.mem_append_left _ (ih hleft)
          · exact List.mem_append_right _ (ih hright)

variable (c t) in
/-- The proof leads from the hash of the subtree to the root, and from no other hash. -/
structure Proves (proof : List Hash) (sub : LeafTree Hash) : Prop where
  complete : climb c (rootOf c sub) proof = rootOf c t
  sound : ∀ hash, CollisionFree c (innerBytes c t ++ climbed c hash proof) →
    climb c hash proof = rootOf c t → hash = rootOf c sub

theorem Proves.nil : Proves c t [] t := ⟨rfl, fun _ _ h => h⟩

/-- A proof of the parent, with the sibling before it. -/
theorem Proves.cons {proof : List Hash} {parent sub sibling : LeafTree Hash}
    (h : Proves c t proof parent)
    (hparent : rootOf c parent =
      Hash.fromData c (sortedConcat (rootOf c sub).buffer (rootOf c sibling).buffer))
    (hmem : sortedConcat (rootOf c sub).buffer (rootOf c sibling).buffer ∈ innerBytes c t) :
    Proves c t (rootOf c sibling :: proof) sub := by
  refine ⟨?_, ?_⟩
  · have hcomplete := h.complete
    rw [hparent] at hcomplete
    exact hcomplete
  · intro hash hfree hclimb
    have hnext : Hash.fromData c (sortedConcat hash.buffer (rootOf c sibling).buffer) =
        rootOf c parent := by
      refine h.sound _ (hfree.mono ?_) hclimb
      exact List.append_subset.mpr ⟨List.subset_append_left _ _,
        fun x hx => List.mem_append_right _ (List.mem_cons_of_mem _ hx)⟩
    rw [hparent] at hnext
    refine sortedConcat_left_cancel (hfree _ ?_ _ (List.mem_append_left _ hmem) hnext)
    exact List.mem_append_right _ List.mem_cons_self

/-- Where the index leads to on a level of some size: right where it is at most that size, and too
far to the left otherwise. -/
structure Tracks (size index found : Nat) : Prop where
  le : found ≤ index
  eq : index ≤ size → found = index
  far : size < index → size ≤ found ∧ found < index

variable {tr : List (List Hash)}

theorem proofLoop_skip {d index : Nat} (h : (tr.getD (d + 1) []).length ≤ index) :
    proofLoop tr (d + 1) index = proofLoop tr d (index / 2) := by
  rw [proofLoop, if_pos h]

theorem proofLoop_sibling {d index : Nat} {hash : Hash} {proof : List Hash}
    (h : index < (tr.getD (d + 1) []).length)
    (hsibling : (tr.getD (d + 1) [])[if index % 2 = 0 then index + 1 else index - 1]? = some hash)
    (hproof : proofLoop tr d (index / 2) = .ok proof) :
    proofLoop tr (d + 1) index = .ok (hash :: proof) := by
  rw [proofLoop, if_neg (Nat.not_le.mpr h)]
  simp only [hsibling, hproof, Result.ok_bind, Result.pure_eq]

/-- The loop, from any level and any index on it: it gives the proof of the subtree, or the leaf that
is less deep, at the index that it tracks. -/
theorem proofLoop_spec (hslanted : t.Slanted)
    (htr : ∀ d, tr.getD d [] = (t.level d).map (rootOf c)) (d index : Nat)
    (hindex : index < (t.frontier d).length) :
    ∃ proof found sub, proofLoop tr d index = .ok proof ∧ (t.frontier d)[found]? = some sub ∧
      Tracks (t.level d).length index found ∧ Proves c t proof sub := by
  induction d generalizing index with
  | zero =>
      obtain rfl : index = 0 := Nat.lt_one_iff.mp hindex
      exact ⟨[], 0, t, rfl, rfl, ⟨le_rfl, fun _ => rfl, fun h => by cases h⟩, .nil⟩
  | succ d ih =>
      rcases hslanted.descend d with ⟨inner, rest, habove, hlevel, hfrontier⟩
      have hinner := hslanted.length_inner_le habove
      have hsize : (t.level (d + 1)).length = 2 * inner.length := by
        rw [hlevel, LeafTree.length_pairs]
      have hsize' : (tr.getD (d + 1) []).length = 2 * inner.length := by
        rw [htr, List.length_map, hsize]
      have hbound : (t.frontier d).length = inner.length + rest.length := by
        rw [habove, List.length_append, List.length_map, List.length_map]
      have hbound' : (t.frontier (d + 1)).length = 2 * inner.length + rest.length := by
        rw [hfrontier, List.length_append, hsize, List.length_map]
      -- the proof of the parent comes from the level above
      rcases ih (index / 2) (by omega) with ⟨proof, found, parent, hproof, hfound, htracks, hproves⟩
      by_cases hdeep : index < 2 * inner.length
      · -- the parent is an inner node, and the sibling is on the level
        have hq : index / 2 < inner.length := by omega
        obtain rfl : found = index / 2 := htracks.eq (by omega)
        rw [habove, List.getElem?_append_left (by simpa using hq), List.getElem?_map,
          List.getElem?_eq_getElem hq] at hfound
        obtain rfl : LeafTree.node inner[index / 2].1 inner[index / 2].2 = parent :=
          Option.some.inj hfound
        have hmem : LeafTree.node inner[index / 2].1 inner[index / 2].2 ∈ t.frontier d := by
          rw [habove]
          exact List.mem_append_left _ (List.mem_map_of_mem (List.getElem_mem hq))
        rcases LeafTree.getElem?_pairs inner (index / 2) with ⟨hfst, hsnd⟩
        rw [← hlevel, List.getElem?_eq_getElem hq] at hfst hsnd
        have hon : ∀ (k : Nat) sub, (t.level (d + 1))[k]? = some sub →
            (t.frontier (d + 1))[k]? = some sub ∧
              (tr.getD (d + 1) [])[k]? = some (rootOf c sub) := by
          intro k sub hk
          refine ⟨?_, ?_⟩
          · rw [hfrontier, List.getElem?_append_left (List.getElem?_eq_some_iff.mp hk).1, hk]
          · rw [htr, List.getElem?_map, hk]
            rfl
        have htracked : Tracks (t.level (d + 1)).length index index :=
          ⟨le_rfl, fun _ => rfl, fun hlt => absurd hlt (by omega)⟩
        -- the sibling is to the right of an even index and to the left of an odd one
        rcases Nat.mod_two_eq_zero_or_one index with heven | hodd
        · have hself : 2 * (index / 2) = index := by omega
          rw [hself] at hfst hsnd
          refine ⟨_, index, _, proofLoop_sibling (by omega) ?_ hproof, (hon _ _ hfst).1, htracked,
            hproves.cons rfl (mem_innerBytes hmem)⟩
          rw [if_pos heven]
          exact (hon _ _ hsnd).2
        · have hself : 2 * (index / 2) + 1 = index := by omega
          have hother : 2 * (index / 2) = index - 1 := by omega
          rw [hself] at hsnd
          rw [hother] at hfst
          refine ⟨rootOf c inner[index / 2].1 :: proof, index, _,
            proofLoop_sibling (by omega) ?_ hproof, (hon _ _ hsnd).1, htracked, hproves.cons ?_ ?_⟩
          · rw [if_neg (by omega)]
            exact (hon _ _ hfst).2
          · rw [sortedConcat_comm]
            rfl
          · rw [sortedConcat_comm]
            exact mem_innerBytes hmem
      · -- nothing on this level: the item comes after it
        have hfar : inner.length ≤ found := by
          rcases Nat.lt_or_ge (t.level d).length (index / 2) with hlt | hle
          · exact hinner.trans (htracks.far hlt).1
          · rw [htracks.eq hle]
            omega
        have hle := htracks.le
        refine ⟨proof, found + inner.length, parent, ?_, ?_, ⟨by omega, ?_, ?_⟩, hproves⟩
        · rw [proofLoop_skip (by omega), hproof]
        · rw [habove, List.getElem?_append_right (by simpa using hfar), List.length_map] at hfound
          rw [hfrontier, List.getElem?_append_right (by omega), hsize]
          have hsame : found + inner.length - 2 * inner.length = found - inner.length := by omega
          rw [hsame]
          exact hfound
        · intro hle'
          have heq := htracks.eq (by omega)
          omega
        · intro hlt
          omega

end Walk

/-- The buffers hashed for the inner nodes, by the root. -/
theorem innerBytes_shape {c : Crypto} {items : List Hash} (h : items ≠ []) :
    innerBytes c (shape c items) = hashed c items := by
  induction items using split_induction with
  | hsmall items hlt =>
      obtain ⟨item, rfl⟩ : ∃ item, items = [item] := by
        rw [← List.length_eq_one_iff]
        have := List.length_pos_iff.mpr h
        omega
      rw [shape_of_lt_two hlt]
      rfl
  | hsplit items hle ihl ihr =>
      have hlo := splitPoint_pos hle
      have hhi := splitPoint_lt hle
      rw [shape_of_two_le hle, innerBytes, rootOf_shape, rootOf_shape, ihl, ihr, ← hashed_eq c hle]
      · exact fun hnil => absurd (List.drop_eq_nil_iff.mp hnil) (by omega)
      · exact fun hnil => h (by simpa [Nat.ne_of_gt hlo] using List.take_eq_nil_iff.mp hnil)

/-- `proof` does not throw for an item, and the proof verifies exactly if the item is at the deepest
level or is the first one that is not. -/
theorem proof_spec (c : Crypto) {items : List Hash} {target : Hash} (hmem : target ∈ items)
    (hnodup : items.Nodup) :
    ∃ path, proof c items target = .ok path ∧
      (items.idxOf target ≤ deepest items.length → verify c path (root c items) target = true) ∧
      (CollisionFree c (hashed c items ++ climbed c target path) →
        verify c path (root c items) target = true → items.idxOf target ≤ deepest items.length) := by
  have hne : items ≠ [] := List.ne_nil_of_mem hmem
  have hindex : items.idxOf target < items.length := List.idxOf_lt_length_of_mem hmem
  -- below all levels, the items are left
  have hfrontier : (shape c items).frontier (shape c items).height = items.map .leaf := by
    rw [LeafTree.frontier_height le_rfl, leaves_shape hne]
  obtain ⟨path, found, sub, hpath, hfound, htracks, hproves⟩ :=
    proofLoop_spec (slanted_shape (c := c) items) (getD_tree items) (shape c items).height
      (items.idxOf target) (by rw [hfrontier, List.length_map]; exact hindex)
  have hlt : found < items.length := htracks.le.trans_lt hindex
  rw [hfrontier, List.getElem?_map, List.getElem?_eq_getElem hlt] at hfound
  obtain rfl : .leaf items[found] = sub := Option.some.inj hfound
  have hlevel : ((shape c items).level (shape c items).height).length = deepest items.length := by
    rw [length_level_shape, height_shape, deepest]
  rw [hlevel] at htracks
  have htarget : items[items.idxOf target] = target := List.getElem_idxOf hindex
  refine ⟨path, ?_, ?_, ?_⟩
  · rw [proof]
    simp only [if_neg hindex.ne, length_tree, Nat.add_sub_cancel]
    exact hpath
  · intro hle
    have hcomplete := hproves.complete
    rw [rootOf_shape, rootOf] at hcomplete
    have hsame : items[found] = target := by
      simp only [htracks.eq hle, htarget]
    rw [hsame] at hcomplete
    exact decide_eq_true hcomplete
  · intro hfree hverify
    have hroot := of_decide_eq_true hverify
    rw [← rootOf_shape] at hroot
    rw [← innerBytes_shape hne] at hfree
    have hsame := hproves.sound target hfree hroot
    by_contra hfar
    have hbefore := (htracks.far (Nat.not_le.mp hfar)).2
    have hidx : items.idxOf target = found := by
      rw [hsame, rootOf]
      exact hnodup.idxOf_getElem found hlt
    omega

/-! ## Proofs of other hashes -/

section Soundness

variable {c : Crypto}

/-- Every leaf has a proof. -/
theorem exists_climb {t : LeafTree Hash} {hash : Hash} (h : hash ∈ t.leaves) :
    ∃ path, climb c hash path = rootOf c t := by
  induction t with
  | leaf item =>
      rw [List.mem_singleton.mp h]
      exact ⟨[], rfl⟩
  | node left right ihl ihr =>
      have hstep : ∀ path sibling, climb c hash (path ++ [sibling]) =
          Hash.fromData c (sortedConcat (climb c hash path).buffer sibling.buffer) := by
        intro path sibling
        simp [climb]
      rcases List.mem_append.mp h with hleft | hright
      · rcases ihl hleft with ⟨path, hpath⟩
        exact ⟨path ++ [rootOf c right], by rw [hstep, hpath, rootOf]⟩
      · rcases ihr hright with ⟨path, hpath⟩
        exact ⟨path ++ [rootOf c left], by rw [hstep, hpath, sortedConcat_comm, rootOf]⟩

/-- Nothing but items can be proved, exactly if the root is an item itself and no item is the hash of
two hashes of which one is not an item: inner nodes are hashed like items. -/
theorem verify_sound_iff (c : Crypto) (items : List Hash) (hne : items ≠ []) :
    (∀ path target, verify c path (root c items) target = true → target ∈ items) ↔
      root c items ∈ items ∧
        ∀ left right : Hash, Hash.fromData c (sortedConcat left.buffer right.buffer) ∈ items →
          left ∈ items := by
  constructor
  · intro hsound
    refine ⟨hsound [] _ (decide_eq_true rfl), ?_⟩
    intro left right hmem
    -- an item can be proved, and what it is the hash of then, too
    rw [← leaves_shape (c := c) hne] at hmem
    rcases exists_climb hmem with ⟨path, hpath⟩
    rw [rootOf_shape] at hpath
    exact hsound (right :: path) left (decide_eq_true hpath)
  · rintro ⟨hroot, hclosed⟩ path
    induction path with
    | nil =>
        intro target hverify
        have htarget : target = root c items := of_decide_eq_true hverify
        rw [htarget]
        exact hroot
    | cons p path ih =>
        intro target hverify
        exact hclosed target p (ih _ hverify)

/-- The hash of a letter. -/
def letter (n : Nat) : Hash := Hash.fromData .transparent [UInt8.ofNat n]

theorem verify_sound_iff_single :
    (∀ path target, verify .transparent path (root .transparent [letter 0]) target = true →
        target ∈ [letter 0]) ↔
      root .transparent [letter 0] ∈ [letter 0] ∧
        ∀ left right : Hash, Hash.fromData .transparent (sortedConcat left.buffer right.buffer) ∈
          [letter 0] → left ∈ [letter 0] :=
  verify_sound_iff .transparent [letter 0] (by simp)

/-- Of four items, the hash over the first two has a proof: the hash over the last two. -/
theorem verifies_inner_node :
    let items := [letter 0, letter 1, letter 2, letter 3]
    let target := root .transparent [letter 0, letter 1]
    CollisionFree .transparent (hashed .transparent items) ∧
      verify .transparent [root .transparent [letter 2, letter 3]] (root .transparent items) target =
        true ∧ target ∉ items := by
  decide +kernel

end Soundness

end MerkleTree

end UniqysKit
