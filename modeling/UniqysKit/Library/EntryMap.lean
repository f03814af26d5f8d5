import Mathlib.Data.List.Nodup
import Mathlib.Tactic.Common

/-!
# Maps that keep the order of insertion

A map as the list of its entries, in the order in which their keys came in.  An entry that is set
again stays where it is.
-/

namespace UniqysKit
namespace Library

/-- The entries of a map. No two of them have the same key. -/
structure EntryMap (K V : Type) where
  entries : List (K × V)
  nodup : (entries.map Prod.fst).Nodup

namespace EntryMap

variable {K V : Type}

/-! ## Operations -/

theorem nodup_nil : (([] : List (K × V)).map Prod.fst).Nodup := List.nodup_nil

def empty : EntryMap K V := ⟨[], nodup_nil⟩

def keys (map : EntryMap K V) : List K := map.entries.map Prod.fst

def values (map : EntryMap K V) : List V := map.entries.map Prod.snd

theorem nodup_filter {entries : List (K × V)} (h : (entries.map Prod.fst).Nodup) (p : K → Bool) :
    ((entries.filter fun entry => p entry.1).map Prod.fst).Nodup :=
  h.sublist (List.filter_sublist.map _)

/-- The entries whose keys satisfy a condition. -/
def filter (map : EntryMap K V) (p : K → Bool) : EntryMap K V :=
  ⟨map.entries.filter fun entry => p entry.1, nodup_filter map.nodup p⟩

theorem filter_sublist {map : EntryMap K V} {p : K → Bool} :
    (map.filter p).entries.Sublist map.entries :=
  List.filter_sublist

variable [DecidableEq K]

def get (map : EntryMap K V) (key : K) : Option V :=
  (map.entries.find? fun entry => decide (entry.1 = key)).map Prod.snd

/-- The entries after one is set. -/
def setEntry (entries : List (K × V)) (key : K) (value : V) : List (K × V) :=
  if key ∈ entries.map Prod.fst then
    entries.map fun entry => if entry.1 = key then (key, value) else entry
  else entries ++ [(key, value)]

theorem nodup_setEntry {entries : List (K × V)} (h : (entries.map Prod.fst).Nodup) (key : K)
    (value : V) : ((setEntry entries key value).map Prod.fst).Nodup := by
  rw [setEntry]
  split
  · have hkeys : (entries.map fun entry => if entry.1 = key then (key, value) else entry).map
        Prod.fst = entries.map Prod.fst := by
      rw [List.map_map]
      refine List.map_congr_left ?_
      intro entry _
      by_cases hkey : entry.1 = key
      · simp [hkey]
      · simp [hkey]
    rwa [hkeys]
  · rename_i hnew
    rw [List.map_append, List.map_singleton]
    refine h.append (List.nodup_singleton key) ?_
    rw [List.disjoint_singleton]
    exact hnew

def set (map : EntryMap K V) (key : K) (value : V) : EntryMap K V :=
  ⟨setEntry map.entries key value, nodup_setEntry map.nodup key value⟩

def delete (map : EntryMap K V) (key : K) : EntryMap K V :=
  map.filter fun other => decide (other ≠ key)

/-! ## What is in a map -/

variable {map : EntryMap K V} {key other : K} {value : V}

theorem get_eq_some : map.get key = some value ↔ (key, value) ∈ map.entries := by
  rw [get]
  constructor
  · intro h
    rcases Option.map_eq_some_iff.mp h with ⟨entry, hfind, rfl⟩
    have hkey : entry.1 = key := by simpa using List.find?_some hfind
    rw [← hkey]
    exact List.mem_of_find?_eq_some hfind
  · intro h
    cases hfind : map.entries.find? fun entry => decide (entry.1 = key) with
    | none =>
        have hnone := List.find?_eq_none.mp hfind (key, value) h
        simp at hnone
    | some entry =>
        have hkey : entry.1 = key := by simpa using List.find?_some hfind
        have hmem := List.mem_of_find?_eq_some hfind
        -- the keys are distinct
        have hentry := List.inj_on_of_nodup_map map.nodup hmem h hkey
        rw [hentry, Option.map_some]

theorem mem_entries_set {entry : K × V} :
    entry ∈ (map.set key value).entries ↔
      entry = (key, value) ∨ entry.1 ≠ key ∧ entry ∈ map.entries := by
  simp only [set, setEntry]
  split
  · -- the key is there, and its entry is replaced in its place
    rename_i hmem
    rcases List.mem_map.mp hmem with ⟨old, hold, hkey⟩
    simp only [List.mem_map]
    constructor
    · rintro ⟨before, hbefore, rfl⟩
      by_cases h : before.1 = key
      · simp [h]
      · simp [h, hbefore]
    · rintro (rfl | ⟨hne, hentry⟩)
      · exact ⟨old, hold, by simp [hkey]⟩
      · exact ⟨entry, hentry, by simp [hne]⟩
  · -- a new key comes last
    rename_i hnew
    rw [List.mem_append, List.mem_singleton]
    constructor
    · rintro (hentry | rfl)
      · refine Or.inr ⟨?_, hentry⟩
        rintro rfl
        exact hnew (List.mem_map_of_mem hentry)
      · exact Or.inl rfl
    · rintro (rfl | ⟨-, hentry⟩)
      · exact Or.inr rfl
      · exact Or.inl hentry

theorem isSome_get : (map.get key).isSome ↔ key ∈ map.keys := by
  rw [Option.isSome_iff_exists, keys, List.mem_map]
  constructor
  · rintro ⟨value, hget⟩
    exact ⟨(key, value), get_eq_some.mp hget, rfl⟩
  · rintro ⟨⟨found, value⟩, hentry, rfl⟩
    exact ⟨value, get_eq_some.mpr hentry⟩

@[simp] theorem get_empty : (empty : EntryMap K V).get key = none := rfl

theorem get_set : (map.set key value).get other = if other = key then some value else map.get other := by
  refine Option.ext ?_
  intro result
  rw [get_eq_some, mem_entries_set]
  by_cases h : other = key
  · simp [h, eq_comm]
  · simp [h, get_eq_some]

theorem get_filter {p : K → Bool} :
    (map.filter p).get key = if p key then map.get key else none := by
  refine Option.ext ?_
  intro result
  rw [get_eq_some, filter, List.mem_filter]
  by_cases h : p key
  · simp [h, get_eq_some]
  · simp [h]

theorem get_delete : (map.delete key).get other = if other = key then none else map.get other := by
  rw [delete, get_filter]
  by_cases h : other = key
  · simp [h]
  · simp [h]

/-- A new key comes last. -/
theorem entries_set (h : map.get key = none) :
    (map.set key value).entries = map.entries ++ [(key, value)] := by
  have hnew : key ∉ map.entries.map Prod.fst := by
    intro hmem
    rcases List.mem_map.mp hmem with ⟨⟨found, old⟩, hold, rfl⟩
    rw [get_eq_some.mpr hold] at h
    cases h
  simp only [set, setEntry, if_neg hnew]

end EntryMap
end Library
end UniqysKit
