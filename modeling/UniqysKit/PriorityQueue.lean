import Mathlib.Data.Rat.Defs
import Mathlib.Algebra.Order.Ring.Rat
import Mathlib.Tactic.Linarith
import UniqysKit.Library.Heap

/-!
# The priority queue

`PriorityQueue` of `packages/priority-queue`, a binary heap in an array.  The array is the function
that reads it: `none` is `undefined`, which is also what is read past its end.  The comparison
function is never to be called with `undefined`; where the code would do that, the result is `none`.

`Follows` says what the queue is for: it serves as a multiset from which a greatest item is taken.
-/

namespace UniqysKit

open Library Library.Slots Library.Heap

namespace Utility

/-- `Item`. -/
structure Item (T : Type) where
  priority : ℚ
  value : T

def descending {T : Type} (item1 item2 : Item T) : ℚ := item1.priority - item2.priority

def ascending {T : Type} (item1 item2 : Item T) : ℚ := item2.priority - item1.priority

end Utility

structure PriorityQueue (T : Type) where
  memory : Nat → Option T
  size : Nat

namespace PriorityQueue

variable {T : Type} (compare : T → T → ℚ)

def new : PriorityQueue T := ⟨fun _ => none, 0⟩

/-- `this.compare(this._memory[i]!, this._memory[j]!)`. -/
def compareAt (memory : Nat → Option T) (i j : Nat) : Option ℚ :=
  (memory i).bind fun item1 => (memory j).map fun item2 => compare item1 item2

/-- The loop of `enqueue`. -/
def siftUp (memory : Nat → Option T) (i : Nat) : Option (Nat → Option T) :=
  if 0 < i then
    let parent := (i - 1) >>> 1
    (compareAt compare memory i parent).bind fun order =>
      if order < 0 then some memory else siftUp (swap memory i parent) parent
  else some memory
termination_by i
decreasing_by
  rw [Nat.shiftRight_eq_div_pow]
  omega

def enqueue (item : T) (queue : PriorityQueue T) : Option (PriorityQueue T) :=
  let memory := Function.update queue.memory queue.size item
  let size := queue.size + 1
  (siftUp compare memory (size - 1)).map fun memory => ⟨memory, size⟩

def peek (queue : PriorityQueue T) : Option T :=
  if queue.size = 0 then none else queue.memory 0

/-- Whether the loop of `dequeue` goes on at the left child. -/
def goesLeft (memory : Nat → Option T) (size left right : Nat) : Option Bool :=
  if right ≥ size then some true
  else (compareAt compare memory left right).map fun order => decide (order > 0)

/-- The loop of `dequeue`. -/
def siftDown (size : Nat) (memory : Nat → Option T) (i : Nat) : Option (Nat → Option T) :=
  if i < size >>> 1 then
    let left := (i <<< 1) + 1
    let right := left + 1
    (goesLeft compare memory size left right).bind fun goesLeft =>
      let child := if goesLeft then left else right
      (compareAt compare memory i child).bind fun order =>
        if order > 0 then some memory else siftDown size (swap memory i child) child
  else some memory
termination_by size - i
decreasing_by
  rw [Nat.shiftRight_eq_div_pow] at *
  rw [Nat.shiftLeft_eq]
  split_ifs <;> omega

def dequeue (queue : PriorityQueue T) : Option (Option T × PriorityQueue T) :=
  if queue.size = 0 then some (none, queue)
  else
    let ret := queue.memory 0
    let size := queue.size - 1
    let memory := Function.update queue.memory 0 (queue.memory size)
    let memory := Function.update memory size none
    if size = 0 then some (ret, ⟨memory, size⟩)
    else (siftDown compare size memory 0).map fun memory => (ret, ⟨memory, size⟩)

inductive Command (T : Type)
  | enqueue (item : T)
  | dequeue
  | peek

/-- What a call returns, and the queue after it. -/
def serve (queue : PriorityQueue T) : Command T → Option (Option T × PriorityQueue T)
  | .enqueue item => (queue.enqueue compare item).map fun queue => (none, queue)
  | .dequeue => queue.dequeue compare
  | .peek => some (queue.peek, queue)

/-- The calls one after another. -/
def serveAll : PriorityQueue T → List (Command T) → Option (List (Option T × PriorityQueue T))
  | _, [] => some []
  | queue, command :: commands =>
      (queue.serve compare command).bind fun step =>
        (serveAll step.2 commands).map fun steps => step :: steps

/-! ## What the queue is for -/

/-- The comparison function is a total preorder, and its sign says in which direction two items
differ. -/
structure TotalPreorder (compare : T → T → ℚ) : Prop where
  flip : ∀ item1 item2, compare item1 item2 < 0 ↔ 0 < compare item2 item1
  trans : ∀ item1 item2 item3, compare item1 item2 ≤ 0 → compare item2 item3 ≤ 0 →
    compare item1 item3 ≤ 0

/-- The answer is an item that no item of the bag exceeds, none where the bag is empty. -/
def Greatest (bag : Multiset T) : Option T → Prop
  | none => bag = 0
  | some item => item ∈ bag ∧ ∀ other ∈ bag, compare other item ≤ 0

/-- What a call may return, and the bag after it. -/
def Allowed (bag : Multiset T) : Command T → Option T → Multiset T → Prop
  | .enqueue item, answer, after => answer = none ∧ after = item ::ₘ bag
  | .dequeue, answer, after => Greatest compare bag answer ∧ bag = answer.toList + after
  | .peek, answer, after => Greatest compare bag answer ∧ after = bag

/-- The steps of a bag that serves the calls. -/
def Follows : Multiset T → List (Command T) → List (Option T × Multiset T) → Prop
  | _, [], [] => True
  | bag, command :: commands, (answer, after) :: steps =>
      Allowed compare bag command answer after ∧ Follows after commands steps
  | _, _, _ => False

/-- What is in the queue. -/
def contents (queue : PriorityQueue T) : Multiset T :=
  (entries queue.memory queue.size).filterMap id

/-! ## The heap -/

variable {compare} {memory memory' : Nat → Option T} {size i j : Nat} {queue : PriorityQueue T}

theorem TotalPreorder.total (order : TotalPreorder compare) (item1 item2 : T) :
    compare item1 item2 ≤ 0 ∨ compare item2 item1 ≤ 0 := by
  by_cases h : compare item1 item2 ≤ 0
  · exact Or.inl h
  · exact Or.inr (le_of_lt ((order.flip item2 item1).mpr (not_le.mp h)))

theorem TotalPreorder.self (order : TotalPreorder compare) (item : T) :
    compare item item ≤ 0 := by
  rcases order.total item item with h | h <;> exact h

/-- Two items are there, and the first does not exceed the second. -/
def AtMost (compare : T → T → ℚ) (slot1 slot2 : Option T) : Prop :=
  ∃ item1 ∈ slot1, ∃ item2 ∈ slot2, compare item1 item2 ≤ 0

theorem TotalPreorder.isTrans (order : TotalPreorder compare) :
    IsTrans (Option T) (AtMost compare) := by
  constructor
  rintro slot1 slot2 slot3 ⟨item1, h1, item2, h2, h12⟩ ⟨item2', h2', item3, h3, h23⟩
  cases Option.mem_unique h2 h2'
  exact ⟨item1, h1, item3, h3, order.trans item1 item2 item3 h12 h23⟩

/-- None of the first slots is undefined. -/
def Filled (memory : Nat → Option T) (size : Nat) : Prop := none ∉ entries memory size

theorem Filled.exists_item (h : Filled memory size) (hi : i < size) :
    ∃ item, memory i = some item := by
  cases hitem : memory i with
  | none => exact absurd (Multiset.mem_map.mpr ⟨i, Multiset.mem_range.mpr hi, hitem⟩) h
  | some item => exact ⟨item, rfl⟩

/-- A comparison of two slots tells which of them is at most the other. -/
theorem TotalPreorder.compareAt (order : TotalPreorder compare) (h : Filled memory size)
    (hi : i < size) (hj : j < size) :
    ∃ sign, PriorityQueue.compareAt compare memory i j = some sign ∧
      (sign ≤ 0 → AtMost compare (memory i) (memory j)) ∧
      (0 ≤ sign → AtMost compare (memory j) (memory i)) := by
  rcases h.exists_item hi with ⟨item1, h1⟩
  rcases h.exists_item hj with ⟨item2, h2⟩
  refine ⟨compare item1 item2, by simp [PriorityQueue.compareAt, h1, h2], ?_, ?_⟩
  · intro hsign
    exact ⟨item1, h1, item2, h2, hsign⟩
  · intro hsign
    refine ⟨item2, h2, item1, h1, ?_⟩
    by_contra hlt
    exact absurd ((order.flip item1 item2).mpr (not_le.mp hlt)) (not_lt.mpr hsign)

/-- The memory is a heap of the same items. -/
structure Sifted (compare : T → T → ℚ) (size : Nat) (memory memory' : Nat → Option T) : Prop where
  ordered : Ordered (AtMost compare) memory' size
  entries : entries memory' size = entries memory size

theorem shiftRight_eq_parent (i : Nat) : (i - 1) >>> 1 = parent i := by
  rw [Nat.shiftRight_eq_div_pow, parent, pow_one]

theorem TotalPreorder.siftUp (order : TotalPreorder compare) (hfilled : Filled memory size)
    (h : UpReady (AtMost compare) memory size i) :
    ∃ memory', PriorityQueue.siftUp compare memory i = some memory' ∧
      Sifted compare size memory memory' := by
  have := order.isTrans
  -- the item moves up to smaller and smaller positions
  induction i using Nat.strongRecOn generalizing memory with
  | ind i ih =>
      have hsize := h.lt
      rw [PriorityQueue.siftUp]
      by_cases hi : 0 < i
      · have hlt := parent_lt hi
        have hparent : parent i < size := by omega
        rcases order.compareAt hfilled hsize hparent with ⟨sign, hsign, hle, hge⟩
        simp only [hi, if_true, shiftRight_eq_parent, hsign, Option.bind_some]
        by_cases hneg : sign < 0
        · rw [if_pos hneg]
          exact ⟨memory, rfl, h.ordered fun _ => hle (le_of_lt hneg), rfl⟩
        · rw [if_neg hneg]
          have hswap := h.swap hi (hge (not_lt.mp hneg))
          have hentries := entries_swap (a := memory) hsize hparent
          have hfilled' : Filled (swap memory i (parent i)) size := by
            rw [Filled, hentries]
            exact hfilled
          rcases ih (parent i) hlt hfilled' hswap with ⟨memory', hsift, hordered, hsame⟩
          exact ⟨memory', hsift, hordered, hsame.trans hentries⟩
      · rw [if_neg hi]
        exact ⟨memory, rfl, h.ordered fun hpos => absurd hpos hi, rfl⟩

/-- The child at which the loop goes on is there, and the other child is at most it. -/
theorem TotalPreorder.goesLeft (order : TotalPreorder compare) (hfilled : Filled memory size)
    (hi : 2 * i + 1 < size) :
    ∃ left, PriorityQueue.goesLeft compare memory size (2 * i + 1) (2 * i + 2) = some left ∧
      ∃ child, (if left then 2 * i + 1 else 2 * i + 2) = child ∧ child < size ∧
        parent child = i ∧ 0 < child ∧
        ∀ j, 0 < j → j < size → parent j = i → j ≠ child →
          AtMost compare (memory j) (memory child) := by
  rw [PriorityQueue.goesLeft]
  by_cases hright : 2 * i + 2 ≥ size
  · -- there is no right child
    rw [if_pos hright]
    refine ⟨true, rfl, 2 * i + 1, rfl, hi, by unfold parent; omega, by omega, ?_⟩
    intro j hj hjs hparent hne
    rcases (parent_eq_iff hj).mp hparent with rfl | rfl <;> omega
  · rw [if_neg hright]
    -- both children are there and are compared, of equals the right one is taken
    rcases order.compareAt hfilled hi (by omega : 2 * i + 2 < size) with ⟨sign, hsign, hle, hge⟩
    rw [hsign, Option.map_some]
    by_cases hpos : sign > 0
    · refine ⟨true, by simp [hpos], 2 * i + 1, rfl, hi, by unfold parent; omega, by omega, ?_⟩
      intro j hj hjs hparent hne
      rcases (parent_eq_iff hj).mp hparent with rfl | rfl
      · exact absurd rfl hne
      · exact hge (le_of_lt hpos)
    · refine ⟨false, by simp [hpos], 2 * i + 2, rfl, by omega, by unfold parent; omega,
        by omega, ?_⟩
      intro j hj hjs hparent hne
      rcases (parent_eq_iff hj).mp hparent with rfl | rfl
      · exact hle (not_lt.mp hpos)
      · exact absurd rfl hne

theorem TotalPreorder.siftDown (order : TotalPreorder compare) (hfilled : Filled memory size)
    (h : DownReady (AtMost compare) memory size i) :
    ∃ memory', PriorityQueue.siftDown compare size memory i = some memory' ∧
      Sifted compare size memory memory' := by
  have := order.isTrans
  -- the item moves down, towards the end of the array
  induction hn : size - i using Nat.strongRecOn generalizing memory i with
  | ind n ih =>
      have hleft : (i <<< 1) + 1 = 2 * i + 1 := by
        rw [Nat.shiftLeft_eq]
        omega
      have hstop : size >>> 1 = size / 2 := Nat.shiftRight_eq_div_pow size 1
      rw [PriorityQueue.siftDown]
      by_cases hi : i < size / 2
      · have hlt : 2 * i + 1 < size := by omega
        rcases order.goesLeft hfilled hlt with
          ⟨left, hgoes, child, hchild, hsize, hparent, hpos, hothers⟩
        rcases order.compareAt hfilled (by omega : i < size) hsize with ⟨sign, hsign, hle, hge⟩
        simp only [hstop, hi, if_true, hleft, hgoes, Option.bind_some, hchild, hsign]
        by_cases hstays : sign > 0
        · rw [if_pos hstays]
          refine ⟨memory, rfl, h.ordered ?_, rfl⟩
          intro j hj hjs hjparent
          have hchildle := hge (le_of_lt hstays)
          by_cases hne : j = child
          · rw [hne]
            exact hchildle
          · exact this.trans _ _ _ (hothers j hj hjs hjparent hne) hchildle
        · rw [if_neg hstays]
          have hswap := h.swap hpos hsize hparent (hle (not_lt.mp hstays)) hothers
          have hentries := entries_swap (a := memory) (by omega : i < size) hsize
          have hfilled' : Filled (swap memory i child) size := by
            rw [Filled, hentries]
            exact hfilled
          have hchildlt := parent_lt hpos
          rcases ih (size - child) (by omega) hfilled' hswap rfl with
            ⟨memory', hsift, hordered, hsame⟩
          exact ⟨memory', hsift, hordered, hsame.trans hentries⟩
      · rw [hstop, if_neg hi]
        refine ⟨memory, rfl, h.ordered ?_, rfl⟩
        intro j hj hjs hparent
        rcases (parent_eq_iff hj).mp hparent with rfl | rfl <;> omega

/-! ## The queue serves as a bag -/

/-- The invariant of the queue. -/
structure IsHeap (compare : T → T → ℚ) (queue : PriorityQueue T) : Prop where
  filled : Filled queue.memory queue.size
  ordered : Ordered (AtMost compare) queue.memory queue.size

theorem isHeap_new : IsHeap compare (new : PriorityQueue T) := by
  constructor
  · simp [Filled, entries, new]
  · intro i _ hi
    exact absurd hi (Nat.not_lt_zero i)

theorem mem_contents {item : T} :
    item ∈ queue.contents ↔ ∃ i < queue.size, queue.memory i = some item := by
  simp [contents, entries, Multiset.mem_filterMap]

theorem IsHeap.peek (order : TotalPreorder compare) (h : IsHeap compare queue) :
    Greatest compare queue.contents queue.peek := by
  have := order.isTrans
  by_cases hsize : queue.size = 0
  · simp [PriorityQueue.peek, hsize, Greatest, contents, entries]
  · have hpos : 0 < queue.size := Nat.pos_of_ne_zero hsize
    rcases h.filled.exists_item hpos with ⟨item, hitem⟩
    rw [PriorityQueue.peek, if_neg hsize, hitem]
    refine ⟨mem_contents.mpr ⟨0, hpos, hitem⟩, ?_⟩
    intro other hother
    rcases mem_contents.mp hother with ⟨i, hi, hat⟩
    by_cases hroot : i = 0
    · subst hroot
      cases hitem.symm.trans hat
      exact order.self item
    · rcases h.ordered.le_root (Nat.pos_of_ne_zero hroot) hi with ⟨item1, h1, item2, h2, hle⟩
      cases hat.symm.trans h1
      cases hitem.symm.trans h2
      exact hle

theorem IsHeap.enqueue (order : TotalPreorder compare) (h : IsHeap compare queue) (item : T) :
    ∃ queue', queue.enqueue compare item = some queue' ∧ IsHeap compare queue' ∧
      queue'.contents = item ::ₘ queue.contents := by
  let memory := Function.update queue.memory queue.size (some item)
  have hsame : ∀ k < queue.size, memory k = queue.memory k := fun k hk =>
    Function.update_of_ne (by omega) _ _
  have hentries : entries memory (queue.size + 1) =
      some item ::ₘ entries queue.memory queue.size := by
    have hlast : memory queue.size = some item := Function.update_self _ _ _
    rw [entries_succ, entries_congr hsame, hlast]
  have hfilled : Filled memory (queue.size + 1) := by
    rw [Filled, hentries, Multiset.mem_cons, not_or]
    exact ⟨nofun, h.filled⟩
  -- the item at the end is the only one that can be out of order
  have hready : UpReady (AtMost compare) memory (queue.size + 1) queue.size := by
    refine ⟨Nat.lt_succ_self _, ?_, ?_⟩
    · intro j hj hjn hne
      have hlt := parent_lt hj
      rw [hsame j (by omega), hsame (parent j) (by omega)]
      exact h.ordered j hj (by omega)
    · -- the last position has nothing below it
      intro _ j hj hjn hparent
      have hlt := parent_lt hj
      omega
  rcases order.siftUp hfilled hready with ⟨memory', hsift, hordered, hsame'⟩
  refine ⟨⟨memory', queue.size + 1⟩, ?_, ⟨?_, hordered⟩, ?_⟩
  · rw [PriorityQueue.enqueue, Nat.add_sub_cancel]
    exact congrArg (Option.map _) hsift
  · rw [Filled, hsame']
    exact hfilled
  · rw [contents, contents, hsame', hentries, Multiset.filterMap_cons_some]
    rfl

/-- Without its root, the last item in its place, a heap lacks order only right below the root. -/
theorem IsHeap.ready (h : IsHeap compare queue) (hsize : queue.size = size + 1) :
    DownReady (AtMost compare)
      (Function.update (Function.update queue.memory 0 (queue.memory size)) size none) size 0 := by
  constructor
  · intro j hj hjs hparent
    have hlt := parent_lt hj
    have hsame : ∀ k, 0 < k → k < size →
        Function.update (Function.update queue.memory 0 (queue.memory size)) size none k =
          queue.memory k := by
      intro k hk hks
      rw [Function.update_of_ne (by omega), Function.update_of_ne (by omega)]
    rw [hsame j hj hjs, hsame (parent j) (by omega) (by omega)]
    exact h.ordered j hj (by omega)
  · intro hpos
    exact absurd hpos (Nat.lt_irrefl 0)

theorem entries_dequeued (memory : Nat → Option T) (size : Nat) :
    entries memory (size + 1) = memory 0 ::ₘ
      entries (Function.update (Function.update memory 0 (memory size)) size none) size := by
  calc
    entries memory (size + 1)
        = entries (swap memory 0 size) (size + 1) := (entries_swap (by omega) (by omega)).symm
    _ = memory 0 ::ₘ entries (swap memory 0 size) size := by rw [entries_succ, swap_right]
    _ = _ := by
          congr 1
          apply entries_congr
          intro k hk
          have hne : k ≠ size := by omega
          rw [swap, Function.update_of_ne hne, Function.update_of_ne hne]

theorem IsHeap.dequeue (order : TotalPreorder compare) (h : IsHeap compare queue) :
    ∃ answer queue', queue.dequeue compare = some (answer, queue') ∧ IsHeap compare queue' ∧
      Greatest compare queue.contents answer ∧
      queue.contents = answer.toList + queue'.contents := by
  have hpeek := h.peek order
  rw [PriorityQueue.peek] at hpeek
  rw [PriorityQueue.dequeue]
  by_cases hsize : queue.size = 0
  · rw [if_pos hsize] at hpeek ⊢
    exact ⟨none, queue, rfl, h, hpeek, by simp⟩
  · rw [if_neg hsize] at hpeek ⊢
    rcases Nat.exists_eq_succ_of_ne_zero hsize with ⟨size, hsucc⟩
    rcases h.filled.exists_item (Nat.pos_of_ne_zero hsize) with ⟨item, hitem⟩
    have hentries := entries_dequeued queue.memory size
    have hready := h.ready hsucc
    have hfilled := h.filled
    rw [Filled, hsucc, hentries, Multiset.mem_cons, not_or] at hfilled
    have hsub : queue.size - 1 = size := by omega
    simp only [hsub]
    generalize Function.update (Function.update queue.memory 0 (queue.memory size)) size none =
      memory at *
    -- sifting moves the items that are left and takes none away
    have hcontents : ∀ memory' : Nat → Option T, entries memory' size = entries memory size →
        queue.contents = (queue.memory 0).toList + (⟨memory', size⟩ : PriorityQueue T).contents := by
      intro memory' hsame
      rw [contents, contents, hsucc, hentries, hsame, hitem, Multiset.filterMap_cons_some]
      · rfl
      · rfl
    by_cases hlast : size = 0
    · -- the root was the only item, and nothing is sifted
      rw [if_pos hlast]
      refine ⟨queue.memory 0, ⟨memory, size⟩, rfl, ⟨hfilled.2, ?_⟩, hpeek, hcontents memory rfl⟩
      intro i _ hi
      exact absurd hi (by simp [hlast])
    · rw [if_neg hlast]
      rcases order.siftDown hfilled.2 hready with ⟨memory', hsift, hordered, hsame⟩
      refine ⟨queue.memory 0, ⟨memory', size⟩, by rw [hsift, Option.map_some], ⟨?_, hordered⟩,
        hpeek, hcontents memory' hsame⟩
      rw [Filled, hsame]
      exact hfilled.2

/-- A call on a heap is answered as by the bag of what the heap contains. -/
theorem IsHeap.serve (order : TotalPreorder compare) (h : IsHeap compare queue)
    (command : Command T) :
    ∃ answer queue', queue.serve compare command = some (answer, queue') ∧
      IsHeap compare queue' ∧
      Allowed compare queue.contents command answer queue'.contents := by
  cases command with
  | enqueue item =>
      rcases h.enqueue order item with ⟨queue', henqueue, hheap, hcontents⟩
      exact ⟨none, queue', by rw [PriorityQueue.serve, henqueue, Option.map_some], hheap, rfl,
        hcontents⟩
  | dequeue =>
      rcases h.dequeue order with ⟨answer, queue', hdequeue, hheap, hgreatest, hcontents⟩
      exact ⟨answer, queue', hdequeue, hheap, hgreatest, hcontents⟩
  | peek => exact ⟨queue.peek, queue, rfl, h, h.peek order, rfl⟩

theorem IsHeap.serveAll (order : TotalPreorder compare) (h : IsHeap compare queue)
    (commands : List (Command T)) :
    ∃ steps, queue.serveAll compare commands = some steps ∧
      Follows compare queue.contents commands
        (steps.map fun step => (step.1, step.2.contents)) := by
  induction commands generalizing queue with
  | nil => exact ⟨[], rfl, trivial⟩
  | cons command commands ih =>
      rcases h.serve order command with ⟨answer, queue', hserve, hheap, hallowed⟩
      rcases ih hheap with ⟨steps, hsteps, hfollows⟩
      refine ⟨(answer, queue') :: steps, ?_, hallowed, hfollows⟩
      rw [PriorityQueue.serveAll, hserve, Option.bind_some, hsteps, Option.map_some]

/-- From an empty queue, whatever the calls: each answer is a greatest item of the bag, and the
contents after each step are those of the bag. -/
theorem serveAll_follows (order : TotalPreorder compare) (commands : List (Command T)) :
    ∃ steps, new.serveAll compare commands = some steps ∧
      Follows compare 0 commands (steps.map fun step => (step.1, step.2.contents)) :=
  isHeap_new.serveAll order commands

theorem descending_totalPreorder : TotalPreorder (Utility.descending (T := T)) := by
  constructor
  · intro item1 item2
    rw [Utility.descending, Utility.descending, sub_neg, sub_pos]
  · intro item1 item2 item3 h12 h23
    rw [Utility.descending, sub_nonpos] at *
    exact h12.trans h23

theorem ascending_totalPreorder : TotalPreorder (Utility.ascending (T := T)) := by
  constructor
  · intro item1 item2
    rw [Utility.ascending, Utility.ascending, sub_neg, sub_pos]
  · intro item1 item2 item3 h12 h23
    rw [Utility.ascending, sub_nonpos] at *
    exact h23.trans h12

theorem serveAll_follows_tasks :
    ∃ steps, serveAll Utility.descending new
        [.enqueue ⟨1, "later"⟩, .enqueue ⟨2, "first"⟩, .peek, .dequeue, .dequeue, .dequeue] =
          some steps ∧
      Follows Utility.descending 0
        [.enqueue ⟨1, "later"⟩, .enqueue ⟨2, "first"⟩, .peek, .dequeue, .dequeue, .dequeue]
        (steps.map fun step => (step.1, step.2.contents)) :=
  serveAll_follows descending_totalPreorder _

end PriorityQueue
end UniqysKit
