import Mathlib.Data.List.Perm.Basic
import UniqysKit.Signature

/-!
# Merkle trees

`packages/blockchain/src/merkle-tree.ts`: the root of a list of hashes.  A list of more than one
item is cut at the largest power of two below its length, and the two sub-roots are sorted as
buffers before they are hashed, so that a proof needs no positions.

Sorting makes the root blind to the order of the two halves of a node, and to nothing else: as long
as no leaf is itself the hash of a 64-byte string, two lists of leaves have the same root exactly if
swapping the halves of some nodes turns one into the other (`rootOfData_eq_iff`).
-/

namespace UniqysKit

/-! ## Ordered buffers -/

/-- `Buffer.compare`. -/
def Buffer.compare : Bytes → Bytes → Ordering
  | [], [] => .eq
  | [], _ :: _ => .lt
  | _ :: _, [] => .gt
  | a :: as, b :: bs =>
      if a.toNat < b.toNat then .lt
      else if b.toNat < a.toNat then .gt
      else Buffer.compare as bs

namespace Buffer

theorem compare_swap (a b : Bytes) : (Buffer.compare a b).swap = Buffer.compare b a := by
  induction a generalizing b with
  | nil =>
      cases b with
      | nil => rfl
      | cons _ _ => rfl
  | cons x xs ih =>
      cases b with
      | nil => rfl
      | cons y ys =>
          simp only [Buffer.compare]
          rcases lt_trichotomy x.toNat y.toNat with h | h | h
          · simp [h, lt_asymm h]
          · simp [h, ih]
          · simp [h, lt_asymm h]

theorem eq_of_compare_eq {a b : Bytes} (h : Buffer.compare a b = .eq) : a = b := by
  induction a generalizing b with
  | nil =>
      cases b with
      | nil => rfl
      | cons _ _ => cases h
  | cons x xs ih =>
      cases b with
      | nil => cases h
      | cons y ys =>
          simp only [Buffer.compare] at h
          split at h
          · cases h
          · rename_i hxy
            split at h
            · cases h
            · rename_i hyx
              have hEq : x = y := UInt8.toNat_inj.1 (by omega)
              rw [hEq, ih h]

end Buffer

/-- `Buffer.concat([a, b].sort(Buffer.compare))`. -/
def sortedConcat (a b : Bytes) : Bytes :=
  if Buffer.compare a b = .gt then b ++ a else a ++ b

theorem sortedConcat_comm (a b : Bytes) : sortedConcat a b = sortedConcat b a := by
  have hswap := Buffer.compare_swap a b
  unfold sortedConcat
  cases hab : Buffer.compare a b with
  | lt =>
      rw [hab] at hswap
      simp [← hswap]
  | gt =>
      rw [hab] at hswap
      simp [← hswap]
  | eq =>
      rw [Buffer.eq_of_compare_eq hab]
      simp

theorem length_sortedConcat (a b : Bytes) : (sortedConcat a b).length = a.length + b.length := by
  unfold sortedConcat
  split
  · simp [Nat.add_comm]
  · simp

/-- A sorted concatenation of equally long buffers determines the two buffers up to order. -/
theorem sortedConcat_inj {a b a' b' : Bytes} (ha : a.length = a'.length) (hb : b.length = b'.length)
    (hab : a.length = b.length) (h : sortedConcat a b = sortedConcat a' b') :
    (a = a' ∧ b = b') ∨ (a = b' ∧ b = a') := by
  have hlen : a'.length = b'.length := by omega
  unfold sortedConcat at h
  split at h
  · split at h
    · rcases List.append_inj h hb with ⟨hb', ha'⟩
      exact Or.inl ⟨ha', hb'⟩
    · rcases List.append_inj h (by omega) with ⟨hb', ha'⟩
      exact Or.inr ⟨ha', hb'⟩
  · split at h
    · rcases List.append_inj h (by omega) with ⟨ha', hb'⟩
      exact Or.inr ⟨ha', hb'⟩
    · rcases List.append_inj h ha with ⟨ha', hb'⟩
      exact Or.inl ⟨ha', hb'⟩

namespace MerkleTree

/-! ## The root -/

/-- The loop of `splitPoint`: `while (i < x) { i <<= 1 }`, in at most `fuel` turns. -/
def splitLoop : Nat → Nat → Nat → Nat
  | 0, i, _ => i
  | fuel + 1, i, x => if i < x then splitLoop fuel (i * 2) x else i

/-- The power of two with `splitPoint x < x ≤ 2 * splitPoint x`. -/
def splitPoint (x : Nat) : Nat := splitLoop x 1 x / 2

/-- The loop stops at a number that has reached `x`, and whose half has not unless the loop did
nothing. -/
theorem splitLoop_spec (fuel i x : Nat) (hi : 0 < i) (hfuel : x ≤ i + fuel) :
    x ≤ splitLoop fuel i x ∧ i ≤ splitLoop fuel i x ∧
      (splitLoop fuel i x = i ∨ splitLoop fuel i x / 2 < x) := by
  induction fuel generalizing i with
  | zero =>
      exact ⟨by simpa [splitLoop] using hfuel, le_refl _, Or.inl rfl⟩
  | succ fuel ih =>
      by_cases hix : i < x
      · have hrec := ih (i * 2) (by omega) (by omega)
        simp only [splitLoop, if_pos hix]
        refine ⟨hrec.1, by omega, Or.inr ?_⟩
        rcases hrec.2.2 with hEq | hlt
        · rw [hEq]
          omega
        · exact hlt
      · simp only [splitLoop, if_neg hix]
        exact ⟨by omega, le_refl _, Or.inl trivial⟩

theorem splitPoint_pos {x : Nat} (h : 2 ≤ x) : 0 < splitPoint x := by
  have hspec := splitLoop_spec x 1 x (by omega) (by omega)
  unfold splitPoint
  omega

theorem splitPoint_lt {x : Nat} (h : 2 ≤ x) : splitPoint x < x := by
  have hspec := splitLoop_spec x 1 x (by omega) (by omega)
  unfold splitPoint
  omega

/-- `_root`, with the number of items as a bound on the depth of the recursion. -/
def rootWithin (c : Crypto) : Nat → List Hash → Hash
  | _, [] => Hash.fromData c []
  | _, [item] => item
  | 0, _ :: _ :: _ => Hash.fromData c []
  | fuel + 1, item :: item' :: items =>
      let all := item :: item' :: items
      let split := splitPoint all.length
      Hash.fromData c (sortedConcat
        (rootWithin c fuel (all.take split)).buffer
        (rootWithin c fuel (all.drop split)).buffer)

/-- `MerkleTree.root` of a list of hashes. -/
def root (c : Crypto) (items : List Hash) : Hash := rootWithin c items.length items

/-- Two bounds that both cover the list give the same root. -/
theorem rootWithin_eq_rootWithin (c : Crypto) (n m : Nat) :
    ∀ items : List Hash, items.length ≤ n + 1 → items.length ≤ m + 1 →
      rootWithin c n items = rootWithin c m items := by
  induction n generalizing m with
  | zero =>
      intro items hn hm
      match items with
      | [] => simp [rootWithin]
      | [_] => simp [rootWithin]
      | _ :: _ :: _ => simp at hn
  | succ n ih =>
      intro items hn hm
      match items, m with
      | [], _ => simp [rootWithin]
      | [_], _ => simp [rootWithin]
      | _ :: _ :: _, 0 => simp at hm
      | a :: b :: rest, m + 1 =>
          have hlo := splitPoint_pos (x := (a :: b :: rest).length) (by simp)
          have hhi := splitPoint_lt (x := (a :: b :: rest).length) (by simp)
          rw [rootWithin, rootWithin,
            ih m _ (by rw [List.length_take]; omega) (by rw [List.length_take]; omega),
            ih m _ (by rw [List.length_drop]; omega) (by rw [List.length_drop]; omega)]

theorem rootWithin_eq_root (c : Crypto) {fuel : Nat} {items : List Hash}
    (h : items.length ≤ fuel + 1) : rootWithin c fuel items = root c items :=
  rootWithin_eq_rootWithin c fuel items.length items h (Nat.le_succ _)

@[simp] theorem root_nil (c : Crypto) : root c [] = Hash.fromData c [] := rfl

@[simp] theorem root_singleton (c : Crypto) (item : Hash) : root c [item] = item := rfl

/-- The recursion of `_root` on a list with at least two items. -/
theorem root_eq (c : Crypto) {items : List Hash} (h : 2 ≤ items.length) :
    root c items = Hash.fromData c (sortedConcat
      (root c (items.take (splitPoint items.length))).buffer
      (root c (items.drop (splitPoint items.length))).buffer) := by
  match items, h with
  | a :: b :: rest, h =>
      have hlo := splitPoint_pos h
      have hhi := splitPoint_lt h
      have hlen : (a :: b :: rest).length = (b :: rest).length + 1 := rfl
      have hleft : (List.take (splitPoint (a :: b :: rest).length) (a :: b :: rest)).length
          ≤ (b :: rest).length + 1 := by
        rw [List.length_take]
        omega
      have hright : (List.drop (splitPoint (a :: b :: rest).length) (a :: b :: rest)).length
          ≤ (b :: rest).length + 1 := by
        rw [List.length_drop]
        omega
      rw [← rootWithin_eq_root c hleft, ← rootWithin_eq_root c hright]
      rfl

theorem root_pair (c : Crypto) (a b : Hash) :
    root c [a, b] = Hash.fromData c (sortedConcat a.buffer b.buffer) := by
  have hsplit : splitPoint 2 = 1 := by decide
  rw [root_eq c (by simp)]
  simp [hsplit]

/-- Two items give the same root in either order. -/
theorem root_pair_comm (c : Crypto) (a b : Hash) : root c [a, b] = root c [b, a] := by
  rw [root_pair, root_pair, sortedConcat_comm]

/-! ## What the root pins down -/

/-- The buffers that the inner nodes of the tree hash. -/
def hashedWithin (c : Crypto) : Nat → List Hash → List Bytes
  | _, [] => [[]]
  | _, [_] => []
  | 0, _ :: _ :: _ => []
  | fuel + 1, item :: item' :: items =>
      let all := item :: item' :: items
      let left := all.take (splitPoint all.length)
      let right := all.drop (splitPoint all.length)
      sortedConcat (root c left).buffer (root c right).buffer ::
        (hashedWithin c fuel left ++ hashedWithin c fuel right)

/-- The buffers that `MerkleTree.root` hands to `Hash.fromData`. -/
def hashed (c : Crypto) (items : List Hash) : List Bytes := hashedWithin c items.length items

theorem hashedWithin_eq_hashedWithin (c : Crypto) (n m : Nat) :
    ∀ items : List Hash, items.length ≤ n + 1 → items.length ≤ m + 1 →
      hashedWithin c n items = hashedWithin c m items := by
  induction n generalizing m with
  | zero =>
      intro items hn hm
      match items with
      | [] => simp [hashedWithin]
      | [_] => simp [hashedWithin]
      | _ :: _ :: _ => simp at hn
  | succ n ih =>
      intro items hn hm
      match items, m with
      | [], _ => simp [hashedWithin]
      | [_], _ => simp [hashedWithin]
      | _ :: _ :: _, 0 => simp at hm
      | a :: b :: rest, m + 1 =>
          have hlo := splitPoint_pos (x := (a :: b :: rest).length) (by simp)
          have hhi := splitPoint_lt (x := (a :: b :: rest).length) (by simp)
          rw [hashedWithin, hashedWithin,
            ih m _ (by rw [List.length_take]; omega) (by rw [List.length_take]; omega),
            ih m _ (by rw [List.length_drop]; omega) (by rw [List.length_drop]; omega)]

theorem hashed_eq (c : Crypto) {items : List Hash} (h : 2 ≤ items.length) :
    hashed c items =
      sortedConcat (root c (items.take (splitPoint items.length))).buffer
          (root c (items.drop (splitPoint items.length))).buffer ::
        (hashed c (items.take (splitPoint items.length)) ++
          hashed c (items.drop (splitPoint items.length))) := by
  match items, h with
  | a :: b :: rest, h =>
      have hlo := splitPoint_pos h
      have hhi := splitPoint_lt h
      have hlen : (a :: b :: rest).length = (b :: rest).length + 1 := rfl
      have hleft : (List.take (splitPoint (a :: b :: rest).length) (a :: b :: rest)).length
          ≤ (b :: rest).length + 1 := by
        rw [List.length_take]
        omega
      have hright : (List.drop (splitPoint (a :: b :: rest).length) (a :: b :: rest)).length
          ≤ (b :: rest).length + 1 := by
        rw [List.length_drop]
        omega
      unfold hashed
      rw [← hashedWithin_eq_hashedWithin c _ _ _ hleft (Nat.le_succ _),
        ← hashedWithin_eq_hashedWithin c _ _ _ hright (Nat.le_succ _)]
      rfl

/-- Everything the two halves hash is hashed by the whole. -/
theorem hashed_halves_subset (c : Crypto) {items : List Hash} (h : 2 ≤ items.length) :
    hashed c (items.take (splitPoint items.length)) ⊆ hashed c items ∧
      hashed c (items.drop (splitPoint items.length)) ⊆ hashed c items := by
  rw [hashed_eq c h]
  constructor
  · intro x hx
    exact List.mem_cons_of_mem _ (List.mem_append_left _ hx)
  · intro x hx
    exact List.mem_cons_of_mem _ (List.mem_append_right _ hx)

section Leaves

variable (c : Crypto)

/-- The root of a list of items, each given by the buffer its `hash` is taken of. -/
def rootOfData (items : List Bytes) : Hash := root c (items.map (Hash.fromData c))

/-- All buffers hashed on the way to the root: those of the items and those of the inner nodes. -/
def hashedOfData (items : List Bytes) : List Bytes :=
  items ++ hashed c (items.map (Hash.fromData c))

/-- The buffer whose hash the root is. -/
def topOfData (items : List Bytes) : Bytes :=
  match items with
  | [] => []
  | [item] => item
  | _ :: _ :: _ =>
      sortedConcat (rootOfData c (items.take (splitPoint items.length))).buffer
        (rootOfData c (items.drop (splitPoint items.length))).buffer

theorem topOfData_eq {items : List Bytes} (h : 2 ≤ items.length) :
    topOfData c items =
      sortedConcat (rootOfData c (items.take (splitPoint items.length))).buffer
        (rootOfData c (items.drop (splitPoint items.length))).buffer := by
  match items, h with
  | _ :: _ :: _, _ => rfl

theorem rootOfData_eq (items : List Bytes) :
    rootOfData c items = Hash.fromData c (topOfData c items) := by
  match items with
  | [] => rfl
  | [_] => rfl
  | a :: b :: rest =>
      unfold rootOfData
      rw [root_eq c (by simp)]
      simp only [topOfData, rootOfData, List.map_take, List.map_drop, List.length_map]

theorem topOfData_mem (items : List Bytes) : topOfData c items ∈ hashedOfData c items := by
  match items with
  | [] => simp [topOfData, hashedOfData, hashed, hashedWithin]
  | [_] => simp [topOfData, hashedOfData]
  | a :: b :: rest =>
      refine List.mem_append_right _ ?_
      rw [hashed_eq c (by simp)]
      simp only [topOfData, rootOfData, List.map_take, List.map_drop, List.length_map]
      exact List.mem_cons_self

theorem length_topOfData {items : List Bytes} (h : 2 ≤ items.length) :
    (topOfData c items).length = 64 := by
  rw [topOfData_eq c h, length_sortedConcat, (rootOfData c _).size, (rootOfData c _).size]

theorem hashedOfData_take_subset {items : List Bytes} (h : 2 ≤ items.length) :
    hashedOfData c (items.take (splitPoint items.length)) ⊆ hashedOfData c items := by
  have hsub := (hashed_halves_subset c
    (show 2 ≤ (items.map (Hash.fromData c)).length by simpa using h)).1
  rw [List.length_map, ← List.map_take] at hsub
  intro x hx
  rcases List.mem_append.1 hx with hx | hx
  · exact List.mem_append_left _ (List.mem_of_mem_take hx)
  · exact List.mem_append_right _ (hsub hx)

theorem hashedOfData_drop_subset {items : List Bytes} (h : 2 ≤ items.length) :
    hashedOfData c (items.drop (splitPoint items.length)) ⊆ hashedOfData c items := by
  have hsub := (hashed_halves_subset c
    (show 2 ≤ (items.map (Hash.fromData c)).length by simpa using h)).2
  rw [List.length_map, ← List.map_drop] at hsub
  intro x hx
  rcases List.mem_append.1 hx with hx | hx
  · exact List.mem_append_left _ (List.mem_of_mem_drop hx)
  · exact List.mem_append_right _ (hsub hx)

end Leaves

/-- A leaf buffer that cannot be taken for the buffer of an inner node or of the empty tree. -/
def IsLeaf (item : Bytes) : Prop := item ≠ [] ∧ item.length ≠ 64

/-- The top buffer tells an empty list, a single leaf and a longer list apart. -/
theorem topOfData_kind (c : Crypto) {items : List Bytes} (hleaf : ∀ item ∈ items, IsLeaf item) :
    (topOfData c items = [] ↔ items = []) ∧
      ((topOfData c items).length = 64 ↔ 2 ≤ items.length) := by
  match items with
  | [] => simp [topOfData]
  | [a] =>
      have ha := hleaf a (by simp)
      exact ⟨by simpa [topOfData] using ha.1, by simpa [topOfData] using ha.2⟩
  | a :: b :: rest =>
      have hlen := length_topOfData c (show 2 ≤ (a :: b :: rest).length by simp)
      refine ⟨⟨fun h => ?_, fun h => by cases h⟩, by simp [hlen]⟩
      rw [h] at hlen
      cases hlen

/-- The halves of two lists whose roots agree have the same roots, straight or crosswise. -/
theorem halves_of_topOfData_eq (c : Crypto) {as bs : List Bytes} (hA : 2 ≤ as.length)
    (hB : 2 ≤ bs.length) (h : topOfData c as = topOfData c bs) :
    (rootOfData c (as.take (splitPoint as.length)) = rootOfData c (bs.take (splitPoint bs.length)) ∧
      rootOfData c (as.drop (splitPoint as.length)) =
        rootOfData c (bs.drop (splitPoint bs.length))) ∨
    (rootOfData c (as.take (splitPoint as.length)) = rootOfData c (bs.drop (splitPoint bs.length)) ∧
      rootOfData c (as.drop (splitPoint as.length)) =
        rootOfData c (bs.take (splitPoint bs.length))) := by
  rw [topOfData_eq c hA, topOfData_eq c hB] at h
  have hsize : ∀ items : List Bytes, (rootOfData c items).buffer.length = 32 :=
    fun items => (rootOfData c items).size
  rcases sortedConcat_inj (by rw [hsize, hsize]) (by rw [hsize, hsize]) (by rw [hsize, hsize]) h with
    ⟨hl, hr⟩ | ⟨hl, hr⟩
  · exact Or.inl ⟨Hash.ext hl, Hash.ext hr⟩
  · exact Or.inr ⟨Hash.ext hl, Hash.ext hr⟩

/-- Two lists of leaves whose trees differ in which half of a node comes first, and in nothing else. -/
inductive SameHalves {α : Type} : List α → List α → Prop
  | leaf (items : List α) : items.length ≤ 1 → SameHalves items items
  | straight {as bs : List α} : 2 ≤ as.length → as.length = bs.length →
      SameHalves (as.take (splitPoint as.length)) (bs.take (splitPoint bs.length)) →
      SameHalves (as.drop (splitPoint as.length)) (bs.drop (splitPoint bs.length)) →
      SameHalves as bs
  | crossed {as bs : List α} : 2 ≤ as.length → as.length = bs.length →
      SameHalves (as.take (splitPoint as.length)) (bs.drop (splitPoint bs.length)) →
      SameHalves (as.drop (splitPoint as.length)) (bs.take (splitPoint bs.length)) →
      SameHalves as bs

namespace SameHalves

variable {α β : Type}

theorem length_eq {as bs : List α} (h : SameHalves as bs) : as.length = bs.length := by
  cases h with
  | leaf _ _ => rfl
  | straight _ hlen _ _ => exact hlen
  | crossed _ hlen _ _ => exact hlen

/-- The items are the same, each as often. -/
theorem perm {as bs : List α} (h : SameHalves as bs) : as.Perm bs := by
  induction h with
  | leaf items _ => exact List.Perm.refl items
  | @straight as bs _ _ _ _ ihl ihr =>
      rw [← List.take_append_drop (splitPoint as.length) as,
        ← List.take_append_drop (splitPoint bs.length) bs]
      exact ihl.append ihr
  | @crossed as bs _ _ _ _ ihl ihr =>
      rw [← List.take_append_drop (splitPoint as.length) as,
        ← List.take_append_drop (splitPoint bs.length) bs]
      exact (ihl.append ihr).trans List.perm_append_comm

theorem map {as bs : List α} (f : α → β) (h : SameHalves as bs) :
    SameHalves (as.map f) (bs.map f) := by
  induction h with
  | leaf items hitems => exact .leaf _ (by simpa using hitems)
  | straight hlong hlen _ _ ihl ihr =>
      refine .straight (by simpa using hlong) (by simpa using hlen) ?_ ?_
      · simpa using ihl
      · simpa using ihr
  | crossed hlong hlen _ _ ihl ihr =>
      refine .crossed (by simpa using hlong) (by simpa using hlen) ?_ ?_
      · simpa using ihl
      · simpa using ihr

theorem of_map {as bs : List α} {f : α → β} (hf : Function.Injective f)
    (h : SameHalves (as.map f) (bs.map f)) : SameHalves as bs := by
  generalize has : as.map f = xs at h
  generalize hbs : bs.map f = ys at h
  induction h generalizing as bs with
  | leaf items hitems =>
      have hEq : as = bs := List.map_injective_iff.2 hf (has.trans hbs.symm)
      rw [hEq]
      exact .leaf bs (by simpa [← hbs] using hitems)
  | straight hlong hlen _ _ ihl ihr =>
      subst has hbs
      refine .straight (by simpa using hlong) (by simpa using hlen) (ihl ?_ ?_) (ihr ?_ ?_)
      all_goals simp
  | crossed hlong hlen _ _ ihl ihr =>
      subst has hbs
      refine .crossed (by simpa using hlong) (by simpa using hlen) (ihl ?_ ?_) (ihr ?_ ?_)
      all_goals simp

/-- Swapping the halves of nodes leaves the root as it is. -/
theorem rootOfData_eq (c : Crypto) {as bs : List Bytes} (h : SameHalves as bs) :
    rootOfData c as = rootOfData c bs := by
  induction h with
  | leaf items _ => rfl
  | @straight as bs hlong hlen _ _ ihl ihr =>
      rw [MerkleTree.rootOfData_eq, MerkleTree.rootOfData_eq c bs, topOfData_eq c hlong,
        topOfData_eq c (hlen ▸ hlong), ihl, ihr]
  | @crossed as bs hlong hlen _ _ ihl ihr =>
      rw [MerkleTree.rootOfData_eq, MerkleTree.rootOfData_eq c bs, topOfData_eq c hlong,
        topOfData_eq c (hlen ▸ hlong), ihl, ihr, sortedConcat_comm]

end SameHalves

/-- With leaves that are not 64 bytes long, the root determines the leaves up to swapped halves.  The
induction is on a bound for the number of leaves. -/
theorem sameHalves_of_rootOfData_eq (c : Crypto) (n : Nat) :
    ∀ as bs : List Bytes, as.length ≤ n →
      (∀ item ∈ as, IsLeaf item) → (∀ item ∈ bs, IsLeaf item) →
      CollisionFree c (hashedOfData c as ++ hashedOfData c bs) →
      rootOfData c as = rootOfData c bs → SameHalves as bs := by
  induction n with
  | zero =>
      intro as bs hlen hA hB hfree hroot
      -- the same root means the same bytes under the last hash
      have htop := hfree _ (List.mem_append_left _ (topOfData_mem c as)) _
        (List.mem_append_right _ (topOfData_mem c bs))
        (by rw [← rootOfData_eq, ← rootOfData_eq, hroot])
      have has : as = [] := List.eq_nil_of_length_eq_zero (by omega)
      rw [(topOfData_kind c hA).1.2 has] at htop
      rw [has, (topOfData_kind c hB).1.1 htop.symm]
      exact .leaf [] (by simp)
  | succ n ih =>
      intro as bs hlen hA hB hfree hroot
      have htop := hfree _ (List.mem_append_left _ (topOfData_mem c as)) _
        (List.mem_append_right _ (topOfData_mem c bs))
        (by rw [← rootOfData_eq, ← rootOfData_eq, hroot])
      have hkindA := topOfData_kind c hA
      have hkindB := topOfData_kind c hB
      rw [← htop] at hkindB
      -- the shape of these bytes tells how many items there are: none, one or more
      have hlong : 2 ≤ as.length ↔ 2 ≤ bs.length := hkindA.2.symm.trans hkindB.2
      have hempty : as = [] ↔ bs = [] := hkindA.1.symm.trans hkindB.1
      by_cases hAlen : 2 ≤ as.length
      · have hBlen := hlong.1 hAlen
        have hlo := splitPoint_pos hAlen
        have hhi := splitPoint_lt hAlen
        have hsub : ∀ xs ys, hashedOfData c xs ⊆ hashedOfData c as →
            hashedOfData c ys ⊆ hashedOfData c bs →
            CollisionFree c (hashedOfData c xs ++ hashedOfData c ys) := by
          intro xs ys hxs hys
          refine hfree.mono (List.append_subset.2 ⟨?_, ?_⟩)
          · exact fun x hx => List.mem_append_left _ (hxs hx)
          · exact fun x hx => List.mem_append_right _ (hys hx)
        have hAt := hashedOfData_take_subset c hAlen
        have hAd := hashedOfData_drop_subset c hAlen
        have hBt := hashedOfData_take_subset c hBlen
        have hBd := hashedOfData_drop_subset c hBlen
        have hAtl : (as.take (splitPoint as.length)).length ≤ n := by
          rw [List.length_take]
          omega
        have hAdl : (as.drop (splitPoint as.length)).length ≤ n := by
          rw [List.length_drop]
          omega
        have hlA : ∀ item ∈ as.take (splitPoint as.length), IsLeaf item :=
          fun item h => hA item (List.mem_of_mem_take h)
        have hrA : ∀ item ∈ as.drop (splitPoint as.length), IsLeaf item :=
          fun item h => hA item (List.mem_of_mem_drop h)
        have hlB : ∀ item ∈ bs.take (splitPoint bs.length), IsLeaf item :=
          fun item h => hB item (List.mem_of_mem_take h)
        have hrB : ∀ item ∈ bs.drop (splitPoint bs.length), IsLeaf item :=
          fun item h => hB item (List.mem_of_mem_drop h)
        have hhalves : ∀ xs ys : List Bytes,
            (xs.take (splitPoint xs.length)).length + (xs.drop (splitPoint xs.length)).length =
              (ys.take (splitPoint ys.length)).length + (ys.drop (splitPoint ys.length)).length →
            xs.length = ys.length := by
          intro xs ys h
          simpa only [← List.length_append, List.take_append_drop] using h
        -- the two roots below were sorted, so the halves may have changed places
        rcases halves_of_topOfData_eq c hAlen hBlen htop with ⟨hl, hr⟩ | ⟨hl, hr⟩
        · have hsl := ih _ _ hAtl hlA hlB (hsub _ _ hAt hBt) hl
          have hsr := ih _ _ hAdl hrA hrB (hsub _ _ hAd hBd) hr
          have hlen := hhalves as bs (by rw [hsl.length_eq, hsr.length_eq])
          exact .straight hAlen hlen hsl hsr
        · have hsl := ih _ _ hAtl hlA hrB (hsub _ _ hAt hBd) hl
          have hsr := ih _ _ hAdl hrA hlB (hsub _ _ hAd hBt) hr
          have hlen := hhalves as bs (by rw [hsl.length_eq, hsr.length_eq, Nat.add_comm])
          exact .crossed hAlen hlen hsl hsr
      · match as, bs with
        | [], bs =>
            rw [hempty.1 rfl]
            exact .leaf [] (by simp)
        | [a], [] => exact absurd (hempty.2 rfl) (by simp)
        | [a], [b] =>
            have hab : a = b := htop
            rw [hab]
            exact .leaf [b] (by simp)
        | [_], _ :: _ :: _ => exact absurd (hlong.2 (by simp)) hAlen
        | _ :: _ :: _, _ => exact absurd (by simp) hAlen

theorem rootOfData_eq_iff (c : Crypto) {as bs : List Bytes} (hA : ∀ item ∈ as, IsLeaf item)
    (hB : ∀ item ∈ bs, IsLeaf item)
    (hfree : CollisionFree c (hashedOfData c as ++ hashedOfData c bs)) :
    rootOfData c as = rootOfData c bs ↔ SameHalves as bs :=
  ⟨sameHalves_of_rootOfData_eq c as.length as bs le_rfl hA hB hfree,
    SameHalves.rootOfData_eq c⟩

end MerkleTree

end UniqysKit
