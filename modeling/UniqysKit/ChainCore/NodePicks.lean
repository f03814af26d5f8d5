import Mathlib.Data.List.ReduceOption
import UniqysKit.ChainCore.RemoteNode
import UniqysKit.Library.Doubles
import UniqysKit.Library.Slots

/-!
# Random picks among the remote nodes

`_pickRandomly` of `remote-node.ts` and what is picked with it.  A draw is what `Math.random()` returns
in a turn of the loop, and the arithmetic on it is that of doubles.  The candidates are an array, read
as a function; `none` is `undefined`, also past its end.
-/

namespace UniqysKit
namespace ChainCore

open Library Library.Slots

namespace Peers

/-! ## The loop -/

/-- `Math.floor(Math.random() * (all - i) + i)`. -/
def pickedIndex (draw : ℚ) (all i : Nat) : Nat :=
  ⌊Doubles.nearest (Doubles.nearest (draw * ((all : ℚ) - i)) + i)⌋.toNat

/-- The candidates after some turns of the loop. -/
def shuffle {α : Type} (index : Nat → Nat) (candidates : Nat → α) : Nat → Nat → α
  | 0 => candidates
  | i + 1 => swap (shuffle index candidates i) i (index i)

/-- The nodes of the set that satisfy the condition. -/
def candidates (condition : RemoteNode → Bool) (peers : Peers) : List NodeRef :=
  peers.set.node.values.filter fun ref => condition (peers.objects ref)

def pickRandomly (rate : Nat → Nat) (condition : RemoteNode → Bool) (draws : Nat → ℚ)
    (peers : Peers) : List (Option NodeRef) :=
  let candidates := peers.candidates condition
  if candidates.length = 0 then []
  else
    let all := candidates.length
    let count := rate all
    if count = all then candidates.map some
    else
      let index i := pickedIndex (draws i) all i
      (List.range count).map (shuffle index (fun i => candidates[i]?) count)

/-! ## What is picked -/

section Receivers

-- `Math.floor(Math.pow(all, rate))`
variable (floorPow : Nat → ℚ → Nat)

/-- `all => rate ? Math.floor(Math.pow(all, rate)) : all`. -/
def byRate (rate : Option ℚ) (all : Nat) : Nat :=
  match rate with
  | some rate => if rate = 0 then all else floorPow all rate
  | none => all

def pickTransactionReceivers (rate : Option ℚ) : (Nat → ℚ) → Peers → List (Option NodeRef) :=
  pickRandomly (byRate floorPow rate) fun _ => true

def pickBlockReceivers (height : Nat) (rate : Option ℚ) :
    (Nat → ℚ) → Peers → List (Option NodeRef) :=
  pickRandomly (byRate floorPow rate) fun node => decide (node.height < height)

def pickConsensusReceivers (consensusHeight : Nat) : (Nat → ℚ) → Peers → List (Option NodeRef) :=
  pickRandomly (fun all => all) fun node => decide (node.consensusHeight = consensusHeight)

end Receivers

/-- The first of one node that is picked. -/
def pickOne (condition : RemoteNode → Bool) (draws : Nat → ℚ) (peers : Peers) : Option NodeRef :=
  (pickRandomly (fun _ => 1) condition draws peers)[0]?.join

def pickProvider (height : Nat) : (Nat → ℚ) → Peers → Option NodeRef :=
  pickOne fun node => decide (node.height ≥ height)

def pickIdleProvider (height : Nat) : (Nat → ℚ) → Peers → Option NodeRef :=
  pickOne fun node => decide (node.height ≥ height) && node.isIdle

/-- A turn of the loop of `bestNode`. -/
def better (peers : Peers) (best : Option NodeRef) (node : NodeRef) : Option NodeRef :=
  match best with
  | some best =>
      if (peers.objects best).height < (peers.objects node).height then some node else some best
  | none => some node

def bestNode (peers : Peers) : Option NodeRef := peers.set.node.values.foldl (better peers) none

/-! ## Turns of the loop -/

section Shuffle

variable {α : Type} {index : Nat → Nat} {a : Nat → Option α} {all m : Nat}

/-- Turns whose indices are in range change nothing past the end and leave what the candidates are. -/
theorem shuffle_of_lt (hm : m ≤ all) (hindex : ∀ i < m, index i < all) :
    (∀ j ≥ all, shuffle index a m j = a j) ∧
      entries (shuffle index a m) all = entries a all := by
  induction m with
  | zero => exact ⟨fun _ _ => rfl, rfl⟩
  | succ m ih =>
      have hlast := hindex m (Nat.lt_succ_self m)
      rcases ih (by omega) fun i hi => hindex i (by omega) with ⟨hpast, hentries⟩
      constructor
      · intro j hj
        rw [shuffle, swap_other (by omega) (by omega)]
        exact hpast j hj
      · rw [shuffle, entries_swap (by omega) hlast]
        exact hentries

/-- A turn whose index is out of range leaves a candidate undefined for good. -/
theorem exists_undefined (ha : ∀ j ≥ all, a j = none) (hm : m ≤ all) (hge : ∀ i < m, i ≤ index i)
    (hout : ∃ i < m, all ≤ index i) : ∃ j < m, shuffle index a m j = none := by
  induction m with
  | zero =>
      rcases hout with ⟨i, hi, -⟩
      omega
  | succ m ih =>
      rw [shuffle]
      by_cases hbefore : ∃ i < m, all ≤ index i
      · rcases ih (by omega) (fun i hi => hge i (by omega)) hbefore with ⟨j, hj, hnone⟩
        have hlast := hge m (Nat.lt_succ_self m)
        refine ⟨j, by omega, ?_⟩
        rw [swap_other (by omega) (by omega)]
        exact hnone
      · -- this turn is the first one that is out of range
        have hlast : all ≤ index m := by
          rcases hout with ⟨i, hi, hle⟩
          by_cases him : i = m
          · rwa [← him]
          · exact absurd ⟨i, by omega, hle⟩ hbefore
        have hin : ∀ i < m, index i < all := by
          intro i hi
          by_contra hle
          exact hbefore ⟨i, hi, not_lt.mp hle⟩
        refine ⟨m, Nat.lt_succ_self m, ?_⟩
        rw [swap_left, (shuffle_of_lt (by omega) hin).1 _ hlast]
        exact ha _ hlast

theorem shuffle_congr {index' : Nat → Nat} (h : ∀ i < m, index' i = index i) :
    shuffle index' a m = shuffle index a m := by
  induction m with
  | zero => rfl
  | succ m ih =>
      rw [shuffle, shuffle, h m (Nat.lt_succ_self m), ih fun i hi => h i (by omega)]

/-- Each selection is what some indices lead to. -/
theorem exists_index (selection : List α) (hnodup : selection.Nodup)
    (hmem : ∀ x ∈ selection, some x ∈ entries a all) (hm : m ≤ selection.length)
    (hall : selection.length ≤ all) :
    ∃ index : Nat → Nat, (∀ i < m, i ≤ index i ∧ index i < all) ∧
      ∀ i < m, shuffle index a m i = selection[i]? := by
  induction m with
  | zero => exact ⟨id, fun _ h => absurd h (Nat.not_lt_zero _), fun _ h => absurd h (Nat.not_lt_zero _)⟩
  | succ m ih =>
      rcases ih (by omega) with ⟨index, hindex, hpicked⟩
      -- the candidate that is to be picked in this turn is at some place
      have hx := hmem selection[m] (List.getElem_mem _)
      rw [← (shuffle_of_lt (by omega) fun i hi => (hindex i hi).2).2] at hx
      rcases Multiset.mem_map.mp hx with ⟨r, hr, hat⟩
      have hrall := Multiset.mem_range.mp hr
      have hge : m ≤ r := by
        by_contra hlt
        have hearlier := hpicked r (by omega)
        rw [hat, List.getElem?_eq_getElem (by omega), Option.some_inj] at hearlier
        have hsame := (hnodup.getElem_inj_iff).mp hearlier
        omega
      have hcongr : shuffle (Function.update index m r) a m = shuffle index a m :=
        shuffle_congr fun i hi => Function.update_of_ne (by omega) _ _
      refine ⟨Function.update index m r, ?_, ?_⟩
      · intro i hi
        by_cases him : i = m
        · rw [him, Function.update_self]
          exact ⟨hge, hrall⟩
        · rw [Function.update_of_ne him]
          exact hindex i (by omega)
      · intro i hi
        rw [shuffle, hcongr, Function.update_self]
        by_cases him : i = m
        · rw [him, swap_left, hat, List.getElem?_eq_getElem (by omega)]
        · rw [swap_other him (by omega)]
          exact hpicked i (by omega)

end Shuffle

/-! ## Draws -/

/-- What `Math.random()` can return. -/
def IsDraw (draw : ℚ) : Prop := Doubles.nearest draw = draw ∧ 0 ≤ draw ∧ draw < 1

section Draws

variable {draw : ℚ} {all i r : Nat}

theorem isDraw_zero : IsDraw 0 := by
  have hnearest := Doubles.nearest_fraction (k := 0) (n := 0) (by norm_num) (by norm_num)
  rw [Nat.cast_zero, zero_div] at hnearest
  exact ⟨hnearest, le_refl 0, one_pos⟩

theorem le_nearest_index (hdraw : IsDraw draw) (hi : i ≤ all) (hall : all < 2 ^ 32) :
    (i : ℚ) ≤ Doubles.nearest (Doubles.nearest (draw * ((all : ℚ) - i)) + i) := by
  have hcast : (i : ℚ) ≤ all := by exact_mod_cast hi
  have hprod : ((0 : ℕ) : ℚ) / 2 ≤ draw * ((all : ℚ) - i) := by
    rw [Nat.cast_zero, zero_div]
    exact mul_nonneg hdraw.2.1 (by linarith)
  have hround := Doubles.le_nearest (by norm_num) hprod
  rw [Nat.cast_zero, zero_div] at hround
  have hsum : ((2 * i : ℕ) : ℚ) / 2 ≤ Doubles.nearest (draw * ((all : ℚ) - i)) + i := by
    push_cast
    linarith
  have hresult := Doubles.le_nearest (by omega) hsum
  push_cast at hresult
  linarith

theorem le_floor_index (hdraw : IsDraw draw) (hi : i ≤ all) (hall : all < 2 ^ 32) :
    (i : ℤ) ≤ ⌊Doubles.nearest (Doubles.nearest (draw * ((all : ℚ) - i)) + i)⌋ := by
  rw [Int.le_floor, Int.cast_natCast]
  exact le_nearest_index hdraw hi hall

theorem le_pickedIndex (hdraw : IsDraw draw) (hi : i ≤ all) (hall : all < 2 ^ 32) :
    i ≤ pickedIndex draw all i := by
  have hfloor := le_floor_index hdraw hi hall
  rw [pickedIndex]
  omega

theorem pickedIndex_lt_iff (hdraw : IsDraw draw) (hi : i ≤ all) (hall : all < 2 ^ 32) :
    pickedIndex draw all i < all ↔
      Doubles.nearest (Doubles.nearest (draw * ((all : ℚ) - i)) + i) < all := by
  have hfloor := le_floor_index hdraw hi hall
  have hlt := Int.floor_lt (a := Doubles.nearest (Doubles.nearest (draw * ((all : ℚ) - i)) + i))
    (z := (all : ℤ))
  rw [Int.cast_natCast] at hlt
  rw [pickedIndex, ← hlt]
  omega

theorem exists_multiple (m n : Nat) : ∃ k, m ≤ k * (n + 1) ∧ k * (n + 1) ≤ m + n := by
  refine ⟨(m + n) / (n + 1), ?_, Nat.div_mul_le_self _ _⟩
  have hdiv := Nat.div_add_mod (m + n) (n + 1)
  have hmod := Nat.mod_lt (m + n) (by omega : n + 1 > 0)
  rw [Nat.mul_comm] at hdiv
  omega

/-- A fraction of one with 33 digits that takes `n + 1` to `d` or at most a half more. -/
theorem exists_fraction {d n : Nat} (hd : d ≤ n) (hn : n < 2 ^ 32) :
    ∃ k : ℕ, k < 2 ^ 33 ∧ ((2 * d : ℕ) : ℚ) / 2 ≤ (k : ℚ) / 2 ^ 33 * (n + 1) ∧
      (k : ℚ) / 2 ^ 33 * (n + 1) ≤ ((2 * d + 1 : ℕ) : ℚ) / 2 := by
  rcases exists_multiple (d * 2 ^ 33) n with ⟨k, hlow, hhigh⟩
  have hpow : (0 : ℚ) < 2 ^ 33 := by norm_num
  refine ⟨k, ?_, ?_, ?_⟩
  · by_contra hge
    have hmul := Nat.mul_le_mul_right (n + 1) (not_lt.mp hge)
    omega
  · rw [div_mul_eq_mul_div, le_div_iff₀ hpow]
    have hcast : (d : ℚ) * 2 ^ 33 ≤ k * (n + 1) := by exact_mod_cast hlow
    push_cast
    linarith
  · rw [div_mul_eq_mul_div, div_le_iff₀ hpow]
    have hcast : (k : ℚ) * (n + 1) ≤ d * 2 ^ 33 + n := by exact_mod_cast hhigh
    have hbound : (n : ℚ) ≤ 2 ^ 32 := by exact_mod_cast le_of_lt hn
    push_cast
    linarith

/-- Each index in range is what some draw leads to. -/
theorem exists_draw (hi : i ≤ r) (hr : r < all) (hall : all < 2 ^ 32) :
    ∃ draw, IsDraw draw ∧ pickedIndex draw all i = r := by
  rcases Nat.exists_eq_add_of_le hi with ⟨d, rfl⟩
  rcases Nat.exists_eq_add_of_lt (by omega : i < all) with ⟨n, rfl⟩
  rcases exists_fraction (by omega : d ≤ n) (by omega) with ⟨k, hk, hprodlow, hprodhigh⟩
  refine ⟨(k : ℚ) / 2 ^ 33, ⟨Doubles.nearest_fraction hk (by norm_num), by positivity, ?_⟩, ?_⟩
  · rw [div_lt_one (by positivity)]
    exact_mod_cast hk
  · have hleft : ((i + n + 1 : ℕ) : ℚ) - i = n + 1 := by
      push_cast
      ring
    rw [pickedIndex, hleft]
    -- the product and the sum stay between an integer and a half more
    have hroundlow := Doubles.le_nearest (by omega) hprodlow
    have hroundhigh := Doubles.nearest_le (by omega) hprodhigh
    generalize Doubles.nearest ((k : ℚ) / 2 ^ 33 * (n + 1)) = product at *
    have hsumlow : ((2 * (i + d) : ℕ) : ℚ) / 2 ≤ product + i := by
      push_cast at hroundlow ⊢
      linarith
    have hsumhigh : product + i ≤ ((2 * (i + d) + 1 : ℕ) : ℚ) / 2 := by
      push_cast at hroundhigh ⊢
      linarith
    have hindexlow := Doubles.le_nearest (by omega) hsumlow
    have hindexhigh := Doubles.nearest_le (by omega) hsumhigh
    have hfloor : ⌊Doubles.nearest (product + i)⌋ = ((i + d : ℕ) : ℤ) := by
      rw [Int.floor_eq_iff]
      push_cast at hindexlow hindexhigh ⊢
      constructor <;> linarith
    rw [hfloor, Int.toNat_natCast]

end Draws

/-! ## Selections -/

/-- The picks are a selection of this size. -/
def Selects {α : Type} (candidates : List α) (count : Nat) (picks : List (Option α)) : Prop :=
  ∃ refs : List α, picks = refs.map some ∧ refs.length = count ∧ refs.Nodup ∧
    ∀ ref ∈ refs, ref ∈ candidates

section Selections

variable {α : Type} {l : List α} {index : Nat → Nat} {count : Nat}

theorem selects_self (hnodup : l.Nodup) : Selects l l.length (l.map some) :=
  ⟨l, rfl, rfl, hnodup, fun _ h => h⟩

theorem exists_map_some {picks : List (Option α)} (h : none ∉ picks) :
    ∃ refs : List α, picks = refs.map some := by
  induction picks with
  | nil => exact ⟨[], rfl⟩
  | cons pick picks ih =>
      rw [List.mem_cons, not_or] at h
      rcases ih h.2 with ⟨refs, rfl⟩
      cases pick with
      | none => exact absurd rfl h.1
      | some ref => exact ⟨ref :: refs, rfl⟩

theorem selects_of_lt (hnodup : l.Nodup) (hcount : count ≤ l.length)
    (hindex : ∀ i < count, index i < l.length) :
    Selects l count ((List.range count).map (shuffle index (fun i => l[i]?) count)) := by
  -- the picks are some of the candidates, each as often as it is there
  have hle : entries (shuffle index (fun i => l[i]?) count) count ≤
      (l.map some : List (Option α)) := by
    rw [← entries_getElem?, ← (shuffle_of_lt hcount hindex).2]
    exact entries_mono hcount
  have hcoe : entries (shuffle index (fun i => l[i]?) count) count =
      ((List.range count).map (shuffle index (fun i => l[i]?) count) : List (Option α)) := rfl
  rw [hcoe] at hle
  have hlength : ((List.range count).map (shuffle index (fun i => l[i]?) count)).length = count := by
    simp
  have hnone : none ∉ (List.range count).map (shuffle index (fun i => l[i]?) count) := by
    intro hmem
    have := Multiset.mem_of_le hle hmem
    simp at this
  rcases exists_map_some hnone with ⟨refs, hrefs⟩
  rw [hrefs] at hle hlength ⊢
  have hsome : Function.Injective (some : α → Option α) := Option.some_injective α
  refine ⟨refs, rfl, by simpa using hlength, ?_, ?_⟩
  · have hpicks := Multiset.nodup_of_le hle (Multiset.coe_nodup.mpr (hnodup.map hsome))
    exact (Multiset.coe_nodup.mp hpicks).of_map some
  · intro ref href
    have hmem := Multiset.mem_of_le hle (Multiset.mem_coe.mpr (List.mem_map_of_mem href))
    exact (List.mem_map_of_injective hsome).mp hmem

/-- Where an index is out of range, the picks are no selection. -/
theorem not_selects (hcount : count ≤ l.length) (hge : ∀ i < count, i ≤ index i)
    (hout : ∃ i < count, l.length ≤ index i) :
    ¬ Selects l count ((List.range count).map (shuffle index (fun i => l[i]?) count)) := by
  rintro ⟨refs, hrefs, -⟩
  have hpast : ∀ j ≥ l.length, (fun i => l[i]?) j = none := fun j hj => List.getElem?_eq_none hj
  rcases exists_undefined hpast hcount hge hout with ⟨j, hj, hnone⟩
  have hmem : none ∈ (List.range count).map (shuffle index (fun i => l[i]?) count) :=
    List.mem_map.mpr ⟨j, List.mem_range.mpr hj, hnone⟩
  rw [hrefs] at hmem
  simp at hmem

end Selections

/-! ## Picks from a set of nodes -/

section Picks

variable {peers : Peers} {rate : Nat → Nat} {condition : RemoteNode → Bool} {draws : Nat → ℚ}
  {ref : NodeRef}

theorem Keyed.nodup_values (h : Keyed peers) : peers.set.node.values.Nodup := by
  refine (peers.set.node.nodup.of_map Prod.fst).map_on ?_
  rintro ⟨key, ref⟩ hentry ⟨key', ref'⟩ hentry' hsame
  -- both are held under the peer id of one node
  have hkey := h key ref (EntryMap.get_eq_some.mpr hentry)
  have hkey' := h key' ref' (EntryMap.get_eq_some.mpr hentry')
  have href : ref = ref' := hsame
  rw [← hkey, ← hkey', href]

theorem Keyed.mem_values (h : Keyed peers) :
    ref ∈ peers.set.node.values ↔ peers.IsMember ref := by
  constructor
  · intro hmem
    rcases List.mem_map.mp hmem with ⟨⟨key, ref⟩, hentry, rfl⟩
    have hget := EntryMap.get_eq_some.mpr hentry
    rwa [IsMember, h key ref hget]
  · intro hmember
    exact List.mem_map.mpr ⟨_, EntryMap.get_eq_some.mp hmember, rfl⟩

theorem Keyed.mem_candidates (h : Keyed peers) :
    ref ∈ peers.candidates condition ↔ peers.IsMember ref ∧ condition (peers.objects ref) := by
  rw [candidates, List.mem_filter, h.mem_values]

/-- No draw is so near to one that the sum is rounded up to the number of candidates. -/
def InRange (draws : Nat → ℚ) (all count : Nat) : Prop :=
  count = all ∨ ∀ i < count,
    Doubles.nearest (Doubles.nearest (draws i * ((all : ℚ) - i)) + i) < all

theorem selects_iff (hnodup : (peers.candidates condition).Nodup)
    (hrate : rate (peers.candidates condition).length ≤ (peers.candidates condition).length)
    (hlength : (peers.candidates condition).length < 2 ^ 32) (hdraws : ∀ i, IsDraw (draws i)) :
    Selects (peers.candidates condition) (rate (peers.candidates condition).length)
        (peers.pickRandomly rate condition draws) ↔
      InRange draws (peers.candidates condition).length (rate (peers.candidates condition).length) := by
  simp only [pickRandomly]
  generalize peers.candidates condition = l at *
  by_cases hempty : l.length = 0
  · -- there is nothing to pick
    have hcount : rate l.length = 0 := by omega
    rw [if_pos hempty, hcount, List.length_eq_zero_iff.mp hempty]
    exact iff_of_true (selects_self List.nodup_nil) (Or.inl rfl)
  · rw [if_neg hempty]
    by_cases hall : rate l.length = l.length
    · -- all are picked, and no draw is made
      rw [if_pos hall, hall]
      exact iff_of_true (selects_self hnodup) (Or.inl rfl)
    · rw [if_neg hall]
      -- an index never falls behind its turn, and leaves the range only by being rounded up
      have hge : ∀ i < rate l.length, i ≤ pickedIndex (draws i) l.length i := fun i hi =>
        le_pickedIndex (hdraws i) (by omega) hlength
      have hlt : ∀ i < rate l.length, (pickedIndex (draws i) l.length i < l.length ↔
          Doubles.nearest (Doubles.nearest (draws i * ((l.length : ℚ) - i)) + i) < l.length) :=
        fun i hi => pickedIndex_lt_iff (hdraws i) (by omega) hlength
      constructor
      · intro hselects
        refine Or.inr fun i hi => (hlt i hi).mp ?_
        by_contra hout
        exact not_selects hrate hge ⟨i, hi, not_lt.mp hout⟩ hselects
      · rintro (heq | hrange)
        · exact absurd heq hall
        · exact selects_of_lt hnodup hrate fun i hi => (hlt i hi).mpr (hrange i hi)

/-- Each selection is what some draws lead to. -/
theorem exists_draws (hlength : (peers.candidates condition).length < 2 ^ 32)
    (hrate : rate (peers.candidates condition).length ≤ (peers.candidates condition).length)
    {selection : List NodeRef}
    (hnodup : selection.Nodup) (hmem : ∀ ref ∈ selection, ref ∈ peers.candidates condition)
    (hcount : selection.length = rate (peers.candidates condition).length) :
    ∃ draws, (∀ i, IsDraw (draws i)) ∧ ∃ refs : List NodeRef,
      peers.pickRandomly rate condition draws = refs.map some ∧ refs.Perm selection := by
  have hzero := isDraw_zero
  simp only [pickRandomly]
  generalize peers.candidates condition = l at *
  by_cases hempty : l.length = 0
  · have hnil : selection = [] := List.length_eq_zero_iff.mp (by omega)
    refine ⟨fun _ => 0, fun _ => hzero, [], by simp [hempty], ?_⟩
    rw [hnil]
  · by_cases hall : rate l.length = l.length
    · refine ⟨fun _ => 0, fun _ => hzero, l, by rw [if_neg hempty, if_pos hall], ?_⟩
      have hsub : selection.Subperm l := List.subperm_of_subset hnodup hmem
      exact (hsub.perm_of_length_le (by omega)).symm
    · have hin : ∀ x ∈ selection, some x ∈ entries (fun i => l[i]?) l.length := by
        intro x hx
        rw [entries_getElem?]
        exact List.mem_map_of_mem (hmem x hx)
      -- some indices pick the selection, and some draws lead to these
      rcases exists_index selection hnodup hin (le_refl _) (by omega) with ⟨index, hindex, hpicked⟩
      have hdraw : ∀ i, ∃ draw, IsDraw draw ∧
          (i < selection.length → pickedIndex draw l.length i = index i) := by
        intro i
        by_cases hi : i < selection.length
        · rcases exists_draw (hindex i hi).1 (hindex i hi).2 hlength with ⟨draw, hdraw, heq⟩
          exact ⟨draw, hdraw, fun _ => heq⟩
        · exact ⟨0, hzero, fun h => absurd h hi⟩
      choose draws hdraws hdrawn using hdraw
      refine ⟨draws, hdraws, selection, ?_, List.Perm.refl _⟩
      rw [if_neg hempty, if_neg hall, ← hcount, shuffle_congr hdrawn]
      refine List.ext_getElem (by simp) ?_
      intro i hi hi'
      simp only [List.length_map] at hi'
      simp only [List.getElem_map, List.getElem_range]
      rw [hpicked i hi', List.getElem?_eq_getElem hi']

end Picks

/-- Sets of nodes that events build up. -/
def Reachable (peers : Peers) : Prop :=
  ∃ (peerId : NodeRef → String) (height : NodeRef → Nat) (events : List PeerEvent),
    peers = events.foldl step (new peerId height)

theorem Reachable.keyed {peers : Peers} (h : peers.Reachable) : Keyed peers := by
  rcases h with ⟨peerId, height, events, rfl⟩
  have hrun : Throughout step (new peerId height) events Keyed :=
    throughout (keyed_new peerId height) (fun _ event hkeyed => hkeyed.step event) events
  exact hrun events [] (List.append_nil _).symm

/-! ## All nodes, one, and the best one -/

theorem pickRandomly_all (condition : RemoteNode → Bool) (draws : Nat → ℚ) (peers : Peers) :
    peers.pickRandomly (fun all => all) condition draws =
      (peers.candidates condition).map some := by
  simp only [pickRandomly]
  split
  · rename_i hempty
    rw [List.length_eq_zero_iff.mp hempty]
    rfl
  · rfl

/-- The draw of the first turn is never rounded up to the number of candidates. -/
theorem inRange_one {draws : Nat → ℚ} {all : Nat} (hdraws : ∀ i, IsDraw (draws i)) (hall : 0 < all) :
    InRange draws all 1 := by
  refine Or.inr ?_
  intro i hi
  rw [Nat.lt_one_iff.mp hi, Nat.cast_zero, sub_zero, add_zero]
  rcases hdraws 0 with ⟨hdouble, hnonneg, hlt⟩
  have hcast : (0 : ℚ) < all := by exact_mod_cast hall
  rw [Doubles.nearest_nearest (mul_nonneg hnonneg (le_of_lt hcast))]
  refine Doubles.nearest_lt hall ?_
  have hmul := mul_le_mul_of_nonneg_right (Doubles.le_of_lt_one hdouble hlt) (le_of_lt hcast)
  linarith

/-- A node is picked wherever there is one to pick. -/
theorem Reachable.pickOne {peers : Peers} (h : peers.Reachable) {condition : RemoteNode → Bool}
    {draws : Nat → ℚ} (hdraws : ∀ i, IsDraw (draws i))
    (hlength : (peers.candidates condition).length < 2 ^ 32) :
    ((∀ ref, peers.IsMember ref → ¬ condition (peers.objects ref)) ∧
        Peers.pickOne condition draws peers = none) ∨
      ∃ ref, peers.IsMember ref ∧ condition (peers.objects ref) ∧
        Peers.pickOne condition draws peers = some ref := by
  have hcandidates : ∀ ref, ref ∈ peers.candidates condition ↔
      peers.IsMember ref ∧ condition (peers.objects ref) := fun _ => h.keyed.mem_candidates
  by_cases hempty : peers.candidates condition = []
  · refine Or.inl ⟨?_, by simp [Peers.pickOne, pickRandomly, hempty]⟩
    intro ref hmember hcondition
    have hmem := (hcandidates ref).mpr ⟨hmember, hcondition⟩
    rw [hempty] at hmem
    cases hmem
  · -- the loop makes one turn, and its index is in range
    have hpos := List.length_pos_of_ne_nil hempty
    have hselects : Selects (peers.candidates condition) 1
        (pickRandomly (fun _ => 1) condition draws peers) :=
      (@selects_iff peers (fun _ => 1) condition draws (h.keyed.nodup_values.filter _) hpos hlength
        hdraws).mpr (inRange_one hdraws hpos)
    rcases hselects with ⟨refs, hpicks, hlen, -, hmem⟩
    rcases List.length_eq_one_iff.mp hlen with ⟨ref, rfl⟩
    rcases (hcandidates ref).mp (hmem ref (List.mem_singleton_self ref)) with ⟨hmember, hcondition⟩
    refine Or.inr ⟨ref, hmember, hcondition, ?_⟩
    rw [Peers.pickOne, hpicks]
    rfl

/-- The loop of `bestNode` from a node in hand. -/
theorem foldl_better (peers : Peers) (nodes : List NodeRef) (first : NodeRef) :
    ∃ best ∈ first :: nodes, nodes.foldl (better peers) (some first) = some best ∧
      ∀ node ∈ first :: nodes, (peers.objects node).height ≤ (peers.objects best).height := by
  induction nodes generalizing first with
  | nil => exact ⟨first, List.mem_singleton_self first, rfl, by simp⟩
  | cons next nodes ih =>
      rw [List.foldl_cons, better]
      split
      · -- the next node is higher than the one in hand
        rename_i hlt
        rcases ih next with ⟨best, hmem, hbest, hmax⟩
        refine ⟨best, List.mem_cons_of_mem first hmem, hbest, ?_⟩
        have hnext := hmax next List.mem_cons_self
        exact List.forall_mem_cons.mpr ⟨by omega, hmax⟩
      · rename_i hge
        rcases ih first with ⟨best, hmem, hbest, hmax⟩
        rcases List.forall_mem_cons.mp hmax with ⟨hfirst, hrest⟩
        refine ⟨best, ?_, hbest, List.forall_mem_cons.mpr ⟨hfirst, ?_⟩⟩
        · rcases List.mem_cons.mp hmem with rfl | hmem
          · exact List.mem_cons_self
          · exact List.mem_cons_of_mem first (List.mem_cons_of_mem next hmem)
        · exact List.forall_mem_cons.mpr ⟨by omega, hrest⟩

/-- The best node is a member, and no member is higher. -/
theorem Reachable.bestNode {peers : Peers} (h : peers.Reachable) :
    ((∀ ref, ¬ peers.IsMember ref) ∧ Peers.bestNode peers = none) ∨
      ∃ best, peers.IsMember best ∧ Peers.bestNode peers = some best ∧
        ∀ ref, peers.IsMember ref → (peers.objects ref).height ≤ (peers.objects best).height := by
  have hvalues : ∀ ref, ref ∈ peers.set.node.values ↔ peers.IsMember ref := fun _ =>
    h.keyed.mem_values
  simp only [Peers.bestNode, ← hvalues]
  cases peers.set.node.values with
  | nil => exact Or.inl ⟨fun _ => List.not_mem_nil, rfl⟩
  | cons first nodes => exact Or.inr (foldl_better peers nodes first)

/-- A selection of the given size is picked exactly when no draw takes an index out of range, and each
selection of that size is picked with some draws. -/
theorem pickRandomly_selects_iff (peers : Peers) (hpeers : peers.Reachable) (rate : Nat → Nat)
    (condition : RemoteNode → Bool) (draws : Nat → ℚ) (hdraws : ∀ i, IsDraw (draws i))
    (hrate : rate (peers.candidates condition).length ≤ (peers.candidates condition).length)
    (hlength : (peers.candidates condition).length < 2 ^ 32) :
    ((∃ refs : List NodeRef, peers.pickRandomly rate condition draws = refs.map some ∧
        refs.length = rate (peers.candidates condition).length ∧ refs.Nodup ∧
        ∀ ref ∈ refs, peers.IsMember ref ∧ condition (peers.objects ref)) ↔
      InRange draws (peers.candidates condition).length (rate (peers.candidates condition).length)) ∧
    ∀ selection : List NodeRef, selection.Nodup →
      selection.length = rate (peers.candidates condition).length →
      (∀ ref ∈ selection, peers.IsMember ref ∧ condition (peers.objects ref)) →
      ∃ draws, (∀ i, IsDraw (draws i)) ∧ ∃ refs : List NodeRef,
        peers.pickRandomly rate condition draws = refs.map some ∧ refs.Perm selection := by
  have hkeyed := hpeers.keyed
  have hnodup : (peers.candidates condition).Nodup := hkeyed.nodup_values.filter _
  constructor
  · rw [← selects_iff hnodup hrate hlength hdraws]
    simp only [Selects, hkeyed.mem_candidates]
  · intro selection hselection hcount hmem
    exact exists_draws hlength hrate hselection
      (fun ref href => hkeyed.mem_candidates.mpr (hmem ref href)) hcount

/-- Five nodes. -/
def fiveNodes : Peers :=
  [.add 0, .add 1, .add 2, .add 3, .add 4].foldl step
    (new (fun ref => ["a", "b", "c", "d", "e"].getD ref "") fun _ => 0)

theorem pickRandomly_selects_zeros :
    ∃ refs : List NodeRef,
      fiveNodes.pickRandomly (fun _ => 2) (fun _ => true) (fun _ => 0) = refs.map some ∧
        refs.length = 2 ∧ refs.Nodup ∧ ∀ ref ∈ refs, fiveNodes.IsMember ref ∧ true :=
  (pickRandomly_selects_iff fiveNodes ⟨_, _, _, rfl⟩ (fun _ => 2) (fun _ => true) (fun _ => 0)
    (fun _ => isDraw_zero) (by decide) (by decide)).1.mpr (Or.inr (by decide +kernel))

/-- Draws of which the fourth is the greatest fraction of one with 52 digits. -/
def lateDraws (i : Nat) : ℚ := if i = 3 then 1 - 1 / 2 ^ 52 else 0

theorem isDraw_lateDraws (i : Nat) : IsDraw (lateDraws i) := by
  rw [lateDraws]
  split
  · have hform : (1 : ℚ) - 1 / 2 ^ 52 = ((2 ^ 52 - 1 : ℕ) : ℚ) / 2 ^ 52 := by norm_num
    refine ⟨?_, by norm_num, by norm_num⟩
    rw [hform]
    exact Doubles.nearest_fraction (by norm_num) (le_refl 52)
  · exact isDraw_zero

/-- Of four nodes that are picked the last one is undefined. -/
theorem not_selects_lateDraws :
    (∀ i, IsDraw (lateDraws i)) ∧
      fiveNodes.pickRandomly (fun all => all - 1) (fun _ => true) lateDraws =
        [some 0, some 1, some 2, none] ∧
      ¬ ∃ refs : List NodeRef,
        fiveNodes.pickRandomly (fun all => all - 1) (fun _ => true) lateDraws = refs.map some := by
  have hpicks : fiveNodes.pickRandomly (fun all => all - 1) (fun _ => true) lateDraws =
      [some 0, some 1, some 2, none] := by decide +kernel
  refine ⟨isDraw_lateDraws, hpicks, ?_⟩
  rintro ⟨refs, hrefs⟩
  have hmem : none ∈ refs.map some := by
    rw [← hrefs, hpicks]
    simp
  simp at hmem

end Peers
end ChainCore
end UniqysKit
