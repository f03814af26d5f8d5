import UniqysKit.MerklePatriciaTrie.Rollback

/-!
# Iterating over a trie

`entries` walks through the nodes, a node's own content before what is below it and the children in
their order.  On the tree that the root stands for this is the dictionary order of the half byte keys,
and half bytes keep the dictionary order of bytes.
-/

namespace UniqysKit

open Library

/-! ## The order of keys -/

namespace Key

/-- The high half byte decides the order of two bytes, then the low one. -/
theorem halves_lt_iff (a b : Nat) :
    a < b ↔ (a - a % 16) / 16 < (b - b % 16) / 16 ∨
      (a - a % 16) / 16 = (b - b % 16) / 16 ∧ a % 16 < b % 16 := by
  constructor
  · intro h
    omega
  · rintro (h | ⟨heq, h⟩)
    · omega
    · omega

/-- Half bytes keep the dictionary order of byte strings. -/
theorem bufferToKey_lt_iff {buf buf' : Bytes} : bufferToKey buf < bufferToKey buf' ↔ buf < buf' := by
  induction buf generalizing buf' with
  | nil =>
      cases buf' with
      | nil => exact iff_of_false (List.not_lt_nil _) (List.not_lt_nil _)
      | cons byte' rest' => exact iff_of_true (List.nil_lt_cons _ _) (List.nil_lt_cons _ _)
  | cons byte rest ih =>
      cases buf' with
      | nil => exact iff_of_false (List.not_lt_nil _) (List.not_lt_nil _)
      | cons byte' rest' =>
          -- a byte is two letters of the key, which are compared one after the other
          have hlt : byte < byte' ↔ _ := UInt8.lt_iff_toNat_lt.trans (halves_lt_iff _ _)
          have heq : byte = byte' ↔ (byte.toNat - byte.toNat % 16) / 16 =
              (byte'.toNat - byte'.toNat % 16) / 16 ∧ byte.toNat % 16 = byte'.toNat % 16 := by
            rw [← UInt8.toNat_inj]
            omega
          simp only [bufferToKey, List.cons_lt_cons_iff, Fin.lt_def, Fin.mk.injEq, ih, hlt, heq]
          tauto

end Key

namespace MerklePatriciaTrie

variable {c : Crypto} {trie : MerklePatriciaTrie} {t : TrieTree}

/-! ## The entries of a sound trie -/

/-- The keys of the entries come in dictionary order. -/
theorem Sound.pairwise_entries (h : Sound c trie t) :
    (t.contents.map fun content => (content.key, content.value)).Pairwise
      fun entry entry' => entry.1 < entry'.1 := by
  have hkeys := h.located.pairwise_contents
  rw [List.pairwise_map] at hkeys ⊢
  exact hkeys.imp fun hlt => Key.bufferToKey_lt_iff.mp hlt

/-- The entries are the pairs that lookups find. -/
theorem Sound.mem_entries_iff (h : Sound c trie t) {key value : Bytes} :
    (key, value) ∈ t.contents.map (fun content => (content.key, content.value)) ↔
      (t.lookup (Key.bufferToKey key)).map Content.value = some value := by
  rw [List.mem_map, Option.map_eq_some_iff]
  constructor
  · rintro ⟨content, hmem, hpair⟩
    rcases Prod.mk.inj hpair with ⟨rfl, rfl⟩
    exact ⟨content, h.located.lookup_eq_some.mpr ⟨hmem, rfl⟩, rfl⟩
  · rintro ⟨content, hlookup, rfl⟩
    rcases h.located.lookup_eq_some.mp hlookup with ⟨hmem, hkey⟩
    exact ⟨content, hmem, congrArg (·, content.value) (Key.bufferToKey_injective hkey)⟩

/-- On every run from a fresh trie `entries` comes to an end, in dictionary order, with exactly the
pairs of the reference map. -/
theorem entries_in_order (c : Crypto) (ops : List Operation)
    (h : NoCollision c (Fallible.final (run c ops (new c))).saved) :
    ∃ trie, run c ops (new c) = .ok () trie ∧ ∃ list bound,
      (∀ fuel ≥ bound, entries fuel trie = .ok (some list) trie) ∧
        list.Pairwise (fun entry entry' => entry.1 < entry'.1) ∧
        ∀ key value, (key, value) ∈ list ↔ reference ops key = some value := by
  rcases run_sound ops h with ⟨trie, t, hrun, hsound, hmap⟩
  rcases hsound.toReadable.entries with ⟨bound, hentries⟩
  refine ⟨trie, hrun, _, bound, hentries, hsound.pairwise_entries, ?_⟩
  intro key value
  rw [hsound.mem_entries_iff, hmap]

/-- A key, one that extends it, and one before both that is set last. -/
theorem entries_in_order_catDog :
    ∃ trie, run .transparent [.set dog, .set catalog, .set cat] (new .transparent) = .ok () trie ∧
      ∃ list bound, (∀ fuel ≥ bound, entries fuel trie = .ok (some list) trie) ∧
        list.Pairwise (fun entry entry' => entry.1 < entry'.1) ∧
        ∀ key value, (key, value) ∈ list ↔
          reference [.set dog, .set catalog, .set cat] key = some value :=
  entries_in_order .transparent [.set dog, .set catalog, .set cat] (by decide +kernel)

end MerklePatriciaTrie

end UniqysKit
