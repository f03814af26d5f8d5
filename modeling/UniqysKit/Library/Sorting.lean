import Mathlib.Data.List.Pairwise
import Mathlib.Data.List.Sort

/-!
# Sorting before and after a change

Blocks of named entries are put in the order of their names.  A change of the names may be made before
or after they are sorted, and `flatMap_mergeSort_iff` says when this comes to the same.
-/

namespace UniqysKit
namespace Library

variable {κ β : Type} {le : κ → κ → Bool} {keys : List κ} {f : κ → κ}

/-- Two different entries of a list stand in it one way round or the other. -/
theorem rel_of_pairwise {R : κ → κ → Prop} (h : keys.Pairwise R) {a b : κ} (ha : a ∈ keys)
    (hb : b ∈ keys) (hne : a ≠ b) : R a b ∨ R b a := by
  have : Std.Symm fun x y => R x y ∨ R y x := ⟨fun _ _ => Or.symm⟩
  have hor : keys.Pairwise fun x y => R x y ∨ R y x := h.imp fun hR => .inl hR
  exact hor.forall ha hb hne

theorem flatMap_filter_ne_nil [DecidableEq β] (block : κ → List β) :
    (keys.filter fun key => block key ≠ []).flatMap block = keys.flatMap block := by
  induction keys with
  | nil => rfl
  | cons key keys ih =>
      by_cases hnil : block key = []
      · rw [List.filter_cons_of_neg (by simpa using hnil), List.flatMap_cons, hnil, List.nil_append, ih]
      · rw [List.filter_cons_of_pos (by simpa using hnil), List.flatMap_cons, List.flatMap_cons, ih]

/-- Where blocks differ at one key at most, the lists do so exactly if the blocks do. -/
theorem flatMap_eq_iff_of_eq_off {block block' : κ → List β} {key : κ} (hnodup : keys.Nodup)
    (hmem : key ∈ keys) (hoff : ∀ other ∈ keys, other ≠ key → block other = block' other) :
    keys.flatMap block = keys.flatMap block' ↔ block key = block' key := by
  induction keys with
  | nil => cases hmem
  | cons first keys ih =>
      rcases List.nodup_cons.mp hnodup with ⟨hnotmem, hrest⟩
      rw [List.flatMap_cons, List.flatMap_cons]
      by_cases hkey : first = key
      · subst hkey
        have hsame : keys.flatMap block = keys.flatMap block' := by
          refine List.flatMap_congr ?_
          intro other hother
          exact hoff other (List.mem_cons_of_mem _ hother) fun heq => hnotmem (heq ▸ hother)
        rw [hsame, List.append_cancel_right_eq]
      · have hmem' : key ∈ keys := (List.mem_cons.mp hmem).resolve_left (Ne.symm hkey)
        rw [hoff first List.mem_cons_self hkey, List.append_cancel_left_eq]
        exact ih hrest hmem' fun other hother => hoff other (List.mem_cons_of_mem _ hother)

/-- Blocks of named entries come in the order of the names, before and after these are changed, if
and only if the change keeps the order of the names that have entries. -/
theorem flatMap_mergeSort_iff [DecidableEq κ] [DecidableEq β]
    (htrans : ∀ a b c, le a b → le b c → le a c) (htotal : ∀ a b, le a b || le b a)
    (hantisymm : ∀ a b, le a b → le b a → a = b) (hf : (keys.map f).Nodup)
    {block block' : κ → List (κ × β)} (hname : ∀ key, ∀ entry ∈ block key, entry.1 = f key)
    (hsame : ∀ key ∈ keys, block' (f key) = block key) :
    (keys.mergeSort le).flatMap block = ((keys.map f).mergeSort le).flatMap block' ↔
      ∀ a ∈ keys, ∀ b ∈ keys, block a ≠ [] → block b ≠ [] → le a b → le (f a) (f b) := by
  have hsorted := List.pairwise_mergeSort htrans htotal keys
  have hsorted' := List.pairwise_mergeSort htrans htotal (keys.map f)
  have hinj : ∀ a ∈ keys, ∀ b ∈ keys, f a = f b → a = b := List.inj_on_of_nodup_map hf
  have hname' : ∀ key ∈ (keys.map f).mergeSort le, ∀ entry ∈ block' key, entry.1 = key := by
    intro key hkey entry hentry
    rcases List.mem_map.mp (List.mem_mergeSort.mp hkey) with ⟨old, hold, rfl⟩
    rw [hsame old hold] at hentry
    exact hname old entry hentry
  constructor
  · intro heq a ha b hb hne hne' hle
    by_cases hab : a = b
    · rw [hab]
      simpa using htotal (f b) (f b)
    · -- the names on the right are in order, so they are on the left
      have hright : (((keys.map f).mergeSort le).flatMap block').Pairwise
          fun x y => le x.1 y.1 = true := by
        refine List.pairwise_flatMap.mpr ⟨?_, ?_⟩
        · intro key hkey
          refine List.pairwise_of_forall_mem_list ?_
          intro x hx y hy
          rw [hname' key hkey x hx, hname' key hkey y hy]
          simpa using htotal key key
        · refine hsorted'.imp_of_mem ?_
          intro k k' hk hk' hkk x hx y hy
          rw [hname' k hk x hx, hname' k' hk' y hy]
          exact hkk
      rw [← heq] at hright
      have hblocks := (List.pairwise_flatMap.mp hright).2
      rcases rel_of_pairwise (hsorted.and hblocks) (List.mem_mergeSort.mpr ha)
        (List.mem_mergeSort.mpr hb) hab with ⟨-, hrel⟩ | ⟨hle', -⟩
      · rcases List.exists_mem_of_ne_nil _ hne with ⟨x, hx⟩
        rcases List.exists_mem_of_ne_nil _ hne' with ⟨y, hy⟩
        have hxy := hrel x hx y hy
        rwa [hname a x hx, hname b y hy] at hxy
      · exact absurd (hantisymm a b hle hle') hab
  · intro hkeeps
    -- names without entries do not show, and the others are in order on both sides
    have hlists : ((keys.mergeSort le).filter fun key => block key ≠ []).map f =
        ((keys.map f).mergeSort le).filter fun key => block' key ≠ [] := by
      refine @List.Perm.eq_of_pairwise _ (fun a b => le a b = true) _ _ ?_ ?_ ?_ ?_
      · exact fun a b _ _ => hantisymm a b
      · refine List.pairwise_map.mpr ((hsorted.filter _).imp_of_mem ?_)
        intro a b ha hb hle
        rcases List.mem_filter.mp ha with ⟨hmem, hne⟩
        rcases List.mem_filter.mp hb with ⟨hmem', hne'⟩
        exact hkeeps a (List.mem_mergeSort.mp hmem) b (List.mem_mergeSort.mp hmem')
          (of_decide_eq_true hne) (of_decide_eq_true hne') hle
      · exact hsorted'.filter _
      · have hfilter : (keys.map f).filter (fun key => block' key ≠ []) =
            (keys.filter fun key => block key ≠ []).map f := by
          rw [List.filter_map]
          refine congrArg _ (List.filter_congr ?_)
          intro key hkey
          simp only [Function.comp, hsame key hkey]
        refine List.Perm.trans ?_ ((List.mergeSort_perm _ le).filter _).symm
        rw [hfilter]
        exact ((List.mergeSort_perm keys le).filter _).map f
    calc
      (keys.mergeSort le).flatMap block
          = ((keys.mergeSort le).filter fun key => block key ≠ []).flatMap block :=
        (flatMap_filter_ne_nil block).symm
      _ = (((keys.mergeSort le).filter fun key => block key ≠ []).map f).flatMap block' := by
        rw [List.flatMap_map]
        refine List.flatMap_congr ?_
        intro key hkey
        exact (hsame key (List.mem_mergeSort.mp (List.mem_filter.mp hkey).1)).symm
      _ = ((keys.map f).mergeSort le).flatMap block' := by
        rw [hlists, flatMap_filter_ne_nil]

end Library
end UniqysKit
