import Mathlib.Data.List.Basic
import Mathlib.Data.List.FinRange
import Mathlib.Tactic

/-!
# Path-compressed trees

A Patricia tree over an alphabet of `n` letters, as a mathematical object: no store, no hashes, no
error paths.  A node carries the letters that are skipped before it branches, one subtree for each
letter, and possibly a content.

* `Patricia.lookup` is the map a tree stands for.
* `Patricia.Normal` is the shape without redundant nodes; a normal tree is determined by its map
  (`Patricia.Normal.eq_of_lookup`).
* `Patricia.Located` says that every content knows the key it is found under.  In a normal located tree
  a subtree is determined by its contents (`Patricia.subtree_eq_of_contents`), and between two such
  trees only the label of the topmost node depends on where the subtree hangs
  (`Patricia.node_eq_of_contents`).
* A walk through a located tree meets its contents in the dictionary order of their keys
  (`Patricia.Located.pairwise_contents`).
* `Patricia.digest` is a hash that covers the digests of the subtrees and the content but neither labels
  nor letters.  It still determines the contents (`Patricia.contents_eq_of_digest`).
-/

namespace UniqysKit
namespace Library

/-- Two lists that share a start agree on it or one of them is a start of the other. -/
theorem isPrefix_of_two {α : Type} {p l k k' : List α} {a b : α} (hab : a ≠ b)
    (h : p <+: l ++ a :: k) (h' : p <+: l ++ b :: k') : p <+: l := by
  induction l generalizing p with
  | nil =>
      cases p with
      | nil => exact List.nil_prefix
      | cons x p =>
          simp only [List.nil_append, List.cons_prefix_cons] at h h'
          exact absurd (h.1.symm.trans h'.1) hab
  | cons y l ih =>
      cases p with
      | nil => exact List.nil_prefix
      | cons x p =>
          simp only [List.cons_append, List.cons_prefix_cons] at h h' ⊢
          exact ⟨h.1, ih h.2 h'.2⟩

/-- A tree whose nodes skip `label`, then branch on the next letter. -/
inductive Patricia (n : Nat) (β : Type) where
  | nil
  | node (label : List (Fin n)) (children : Fin n → Patricia n β) (content : Option β)

namespace Patricia

variable {n : Nat} {β : Type}

/-! ## The map of a tree -/

def lookup : Patricia n β → List (Fin n) → Option β
  | .nil, _ => none
  | .node label children content, key =>
      if label <+: key then
        match key.drop label.length with
        | [] => content
        | letter :: rest => (children letter).lookup rest
      else none

@[simp] theorem lookup_nil (key : List (Fin n)) : (nil : Patricia n β).lookup key = none := rfl

@[simp] theorem lookup_label (label : List (Fin n)) (children : Fin n → Patricia n β)
    (content : Option β) : (node label children content).lookup label = content := by
  simp [lookup]

@[simp] theorem lookup_append_cons (label rest : List (Fin n)) (letter : Fin n)
    (children : Fin n → Patricia n β) (content : Option β) :
    (node label children content).lookup (label ++ letter :: rest) =
      (children letter).lookup rest := by
  simp [lookup]

theorem lookup_eq_none_of {label key : List (Fin n)} (h : ¬ label <+: key)
    (children : Fin n → Patricia n β) (content : Option β) :
    (node label children content).lookup key = none := by
  simp [lookup, h]

/-- The three ways a key can relate to the label of a node. -/
theorem key_cases (label key : List (Fin n)) :
    ¬ label <+: key ∨ key = label ∨ ∃ letter rest, key = label ++ letter :: rest := by
  by_cases h : label <+: key
  · rcases h with ⟨rest, rfl⟩
    cases rest with
    | nil => exact .inr (.inl (by simp))
    | cons letter rest => exact .inr (.inr ⟨letter, rest, rfl⟩)
  · exact .inl h

/-- Where a key found in a node leads. -/
theorem lookup_node_eq_some {label key : List (Fin n)} {children : Fin n → Patricia n β}
    {content : Option β} {c : β} :
    (node label children content).lookup key = some c ↔
      (key = label ∧ content = some c) ∨
        ∃ letter rest, key = label ++ letter :: rest ∧ (children letter).lookup rest = some c := by
  constructor
  · intro h
    rcases key_cases label key with hno | rfl | ⟨letter, rest, rfl⟩
    · simp [lookup_eq_none_of hno] at h
    · exact .inl ⟨rfl, by simpa using h⟩
    · exact .inr ⟨letter, rest, rfl, by simpa using h⟩
  · rintro (⟨rfl, h⟩ | ⟨letter, rest, rfl, h⟩)
    · simpa using h
    · simpa using h

/-- Replacing the content of a node changes the key of the node and no other. -/
theorem lookup_content (label key : List (Fin n)) (children : Fin n → Patricia n β)
    (content content' : Option β) : (node label children content').lookup key =
      if key = label then content' else (node label children content).lookup key := by
  rcases key_cases label key with hno | rfl | ⟨letter, rest, rfl⟩
  · have hne : key ≠ label := by
      rintro rfl
      exact hno List.prefix_rfl
    rw [if_neg hne, lookup_eq_none_of hno, lookup_eq_none_of hno]
  · simp
  · simp

/-- The tree of one content. -/
theorem lookup_leaf (label key : List (Fin n)) (content : Option β) :
    (node label (fun _ => nil) content).lookup key = if key = label then content else none := by
  rw [lookup_content label key (fun _ => nil) none content]
  rcases key_cases label key with hno | rfl | ⟨letter, rest, rfl⟩
  · rw [lookup_eq_none_of hno]
  · simp
  · simp

/-- The map of a node depends on the maps of its subtrees only. -/
theorem lookup_congr {label key : List (Fin n)} {children children' : Fin n → Patricia n β}
    {content : Option β} (h : ∀ letter rest, (children letter).lookup rest =
      (children' letter).lookup rest) :
    (node label children content).lookup key = (node label children' content).lookup key := by
  rcases key_cases label key with hno | rfl | ⟨letter, rest, rfl⟩
  · rw [lookup_eq_none_of hno, lookup_eq_none_of hno]
  · simp
  · simp [h]

/-- A node that only passes a key on to one subtree can be merged with it. -/
theorem lookup_merge {label rest : List (Fin n)} {letter : Fin n} {children below : Fin n → Patricia n β}
    {content : Option β} (hchild : children letter = node rest below content)
    (hother : ∀ other, other ≠ letter → children other = nil) (key : List (Fin n)) :
    (node (label ++ letter :: rest) below content).lookup key =
      (node label children none).lookup key := by
  refine Option.ext ?_
  intro c
  rw [lookup_node_eq_some, lookup_node_eq_some]
  constructor
  · rintro (⟨rfl, hc⟩ | ⟨letter', rest', rfl, hc⟩)
    · exact .inr ⟨letter, rest, rfl, by simpa [hchild] using hc⟩
    · exact .inr ⟨letter, rest ++ letter' :: rest', by simp, by simpa [hchild] using hc⟩
  · rintro (⟨-, hc⟩ | ⟨letter', rest', rfl, hc⟩)
    · cases hc
    · obtain rfl : letter' = letter := by
        by_contra hne
        simp [hother letter' hne] at hc
      rw [hchild] at hc
      rcases lookup_node_eq_some.mp hc with ⟨rfl, hfound⟩ | ⟨letter'', rest'', rfl, hfound⟩
      · exact .inl ⟨rfl, hfound⟩
      · exact .inr ⟨letter'', rest'', by simp, hfound⟩

/-- Replacing the subtree below one letter changes the keys that pass it and no others. -/
theorem lookup_update (p : List (Fin n) → Prop) [DecidablePred p] {label key : List (Fin n)}
    {letter : Fin n} {children : Fin n → Patricia n β} {content v : Option β} {child : Patricia n β}
 (hchild : ∀ rest, child.lookup rest =
      if p (label ++ letter :: rest) then v else (children letter).lookup rest)
    (hother : p key → ∃ rest, key = label ++ letter :: rest) :
    (node label (Function.update children letter child) content).lookup key =
      if p key then v else (node label children content).lookup key := by
  by_cases hkey : ∃ rest, key = label ++ letter :: rest
  · rcases hkey with ⟨rest, rfl⟩
    simp [hchild]
  · rw [if_neg fun hp => hkey (hother hp)]
    rcases key_cases label key with hno | rfl | ⟨letter', rest, rfl⟩
    · rw [lookup_eq_none_of hno, lookup_eq_none_of hno]
    · simp
    · have hne : letter' ≠ letter := by
        rintro rfl
        exact hkey ⟨rest, rfl⟩
      simp [hne]

/-! ## Contents -/

/-- The contents in the order of a depth-first walk, a node's own content first. -/
def contents : Patricia n β → List β
  | .nil => []
  | .node _ children content =>
      content.toList ++ (List.finRange n).flatMap fun letter => (children letter).contents

@[simp] theorem contents_nil : (nil : Patricia n β).contents = [] := rfl

theorem mem_contents_node {label : List (Fin n)} {children : Fin n → Patricia n β}
    {content : Option β} {c : β} :
    c ∈ (node label children content).contents ↔
      content = some c ∨ ∃ letter, c ∈ (children letter).contents := by
  simp [contents]

/-- The contents are what lookups find. -/
theorem mem_contents {t : Patricia n β} {c : β} : c ∈ t.contents ↔ ∃ key, t.lookup key = some c := by
  induction t with
  | nil => simp
  | node label children content ih =>
      rw [mem_contents_node]
      constructor
      · rintro (h | ⟨letter, h⟩)
        · exact ⟨label, by simpa using h⟩
        · rcases (ih letter).mp h with ⟨rest, hrest⟩
          exact ⟨label ++ letter :: rest, by simpa using hrest⟩
      · rintro ⟨key, h⟩
        rcases lookup_node_eq_some.mp h with ⟨-, hc⟩ | ⟨letter, rest, -, hrest⟩
        · exact .inl hc
        · exact .inr ⟨letter, (ih letter).mpr ⟨rest, hrest⟩⟩

/-- The keys of a tree, in the order of its contents. -/
def keys : Patricia n β → List (List (Fin n))
  | .nil => []
  | .node label children content =>
      (content.toList.map fun _ => label) ++
        (List.finRange n).flatMap fun letter =>
          (children letter).keys.map fun rest => label ++ letter :: rest

theorem length_keys (t : Patricia n β) : t.keys.length = t.contents.length := by
  induction t with
  | nil => rfl
  | node label children content ih => simp [keys, contents, List.length_flatMap, ih]

theorem mem_keys {t : Patricia n β} {key : List (Fin n)} :
    key ∈ t.keys ↔ (t.lookup key).isSome := by
  induction t generalizing key with
  | nil => simp [keys]
  | node label children content ih =>
      rw [Option.isSome_iff_exists]
      simp only [keys, List.mem_append, List.mem_map, List.mem_flatMap, List.mem_finRange, true_and,
        lookup_node_eq_some, ih, Option.isSome_iff_exists, Option.mem_toList]
      constructor
      · rintro (⟨c, hc, rfl⟩ | ⟨letter, rest, ⟨c, hc⟩, rfl⟩)
        · exact ⟨c, .inl ⟨rfl, hc⟩⟩
        · exact ⟨c, .inr ⟨letter, rest, rfl, hc⟩⟩
      · rintro ⟨c, ⟨rfl, hc⟩ | ⟨letter, rest, rfl, hc⟩⟩
        · exact .inl ⟨c, hc, rfl⟩
        · exact .inr ⟨letter, rest, ⟨c, hc⟩, rfl⟩

/-- The keys come in the order of a dictionary, a key before those that start with it. -/
theorem pairwise_keys (t : Patricia n β) : t.keys.Pairwise (· < ·) := by
  induction t with
  | nil => exact List.Pairwise.nil
  | node label children content ih =>
      rw [keys, List.pairwise_append]
      refine ⟨?_, ?_, ?_⟩
      · cases content with
        | none => exact List.Pairwise.nil
        | some c => exact List.pairwise_singleton _ _
      · -- below one letter the keys are in order by induction, and letters come in their order
        rw [List.pairwise_flatMap]
        refine ⟨?_, ?_⟩
        · intro letter _
          rw [List.pairwise_map]
          refine (ih letter).imp ?_
          intro rest rest' h
          exact List.append_left_lt (List.cons_lt_cons_self.mpr h)
        · refine (List.pairwise_lt_finRange n).imp ?_
          intro a b hab key ha key' hb
          rcases List.mem_map.mp ha with ⟨rest, -, rfl⟩
          rcases List.mem_map.mp hb with ⟨rest', -, rfl⟩
          exact List.append_left_lt (List.cons_lt_cons_iff.mpr (.inl hab))
      · intro key hkey key' hkey'
        rcases List.mem_map.mp hkey with ⟨c, -, rfl⟩
        rcases List.mem_flatMap.mp hkey' with ⟨letter, -, hmem⟩
        rcases List.mem_map.mp hmem with ⟨rest, -, rfl⟩
        -- the key of the node itself is a proper prefix of the keys below it
        calc
          label = label ++ [] := (List.append_nil label).symm
          _ < label ++ letter :: rest := List.append_left_lt (List.nil_lt_cons letter rest)

theorem nodup_keys (t : Patricia n β) : t.keys.Nodup :=
  t.pairwise_keys.imp fun h => ne_of_lt h

/-- A tree that has, up to an injection, all keys of another has at least as many. -/
theorem length_keys_le {s t : Patricia n β} {g : List (Fin n) → List (Fin n)}
    (hg : ∀ k ∈ t.keys, ∀ k' ∈ t.keys, g k = g k' → k = k') (h : ∀ k ∈ t.keys, g k ∈ s.keys) :
    t.keys.length ≤ s.keys.length := by
  have hnodup : (t.keys.map g).Nodup := (List.nodup_map_iff_inj_on t.nodup_keys).mpr hg
  have hsub : t.keys.map g ⊆ s.keys := by
    intro k hk
    rcases List.mem_map.mp hk with ⟨k', hk', rfl⟩
    exact h k' hk'
  have hle := (hnodup.subperm hsub).length_le
  simpa using hle

/-! ## Normal trees -/

/-- No node without content has fewer than two subtrees. -/
def Normal : Patricia n β → Prop
  | .nil => True
  | .node _ children content =>
      (∀ letter, (children letter).Normal) ∧
        (content = none → ∃ a b, a ≠ b ∧ children a ≠ nil ∧ children b ≠ nil)

theorem Normal.child {label : List (Fin n)} {children : Fin n → Patricia n β} {content : Option β}
    (h : (node label children content).Normal) (letter : Fin n) : (children letter).Normal :=
  h.1 letter

theorem Normal.exists_mem {t : Patricia n β} (h : t.Normal) (hne : t ≠ nil) : ∃ c, c ∈ t.contents := by
  induction t with
  | nil => exact absurd rfl hne
  | node label children content ih =>
      cases content with
      | some c => exact ⟨c, mem_contents_node.mpr (.inl rfl)⟩
      | none =>
          rcases h.2 rfl with ⟨a, -, -, ha, -⟩
          rcases ih a (h.child a) ha with ⟨c, hc⟩
          exact ⟨c, mem_contents_node.mpr (.inr ⟨a, hc⟩)⟩

theorem Normal.exists_lookup {t : Patricia n β} (h : t.Normal) (hne : t ≠ nil) :
    ∃ key c, t.lookup key = some c := by
  rcases h.exists_mem hne with ⟨c, hc⟩
  rcases mem_contents.mp hc with ⟨key, hkey⟩
  exact ⟨key, c, hkey⟩

/-- The label of a normal node is the longest start that all keys found below it share. -/
theorem Normal.prefix_label {label : List (Fin n)} {children : Fin n → Patricia n β}
    {content : Option β} (h : (node label children content).Normal) {p : List (Fin n)}
    (hp : ∀ key c, (node label children content).lookup key = some c → p <+: key) :
    p <+: label := by
  cases content with
  | some c => exact hp label c (by simp)
  | none =>
      rcases h.2 rfl with ⟨a, b, hab, ha, hb⟩
      rcases (h.child a).exists_lookup ha with ⟨ka, ca, hka⟩
      rcases (h.child b).exists_lookup hb with ⟨kb, cb, hkb⟩
      exact isPrefix_of_two hab (hp (label ++ a :: ka) ca (by simpa using hka))
        (hp (label ++ b :: kb) cb (by simpa using hkb))

/-- A subtree of a normal node has fewer keys than the node. -/
theorem Normal.length_keys_child_lt {label : List (Fin n)} {children : Fin n → Patricia n β}
    {content : Option β} (h : (node label children content).Normal) (letter : Fin n) :
    (children letter).keys.length < (node label children content).keys.length := by
  -- a normal node has a key that is not below this child: its own, or one of another child
  obtain ⟨extra, hextra, hno⟩ : ∃ extra ∈ (node label children content).keys,
      ∀ rest, extra ≠ label ++ letter :: rest := by
    cases content with
    | some c =>
        refine ⟨label, mem_keys.mpr (by simp), ?_⟩
        intro rest hrest
        simp at hrest
    | none =>
        rcases h.2 rfl with ⟨a, b, hab, ha, hb⟩
        obtain ⟨d, hd, hdne⟩ : ∃ d, d ≠ letter ∧ children d ≠ nil := by
          by_cases hal : a = letter
          · exact ⟨b, fun hbl => hab (hal.trans hbl.symm), hb⟩
          · exact ⟨a, hal, ha⟩
        rcases (h.child d).exists_lookup hdne with ⟨key, c, hkey⟩
        refine ⟨label ++ d :: key, mem_keys.mpr (by simp [hkey]), ?_⟩
        intro rest hrest
        simp only [List.append_cancel_left_eq, List.cons.injEq] at hrest
        exact hd hrest.1
  -- so the keys below the child and that one are different keys of the node
  have hnodup : (extra :: (children letter).keys.map fun rest => label ++ letter :: rest).Nodup := by
    refine List.nodup_cons.mpr ⟨?_, (nodup_keys _).map ?_⟩
    · intro hmem
      rcases List.mem_map.mp hmem with ⟨rest, -, hrest⟩
      exact hno rest hrest.symm
    · intro rest rest' heq
      simpa using heq
  have hsub : (extra :: (children letter).keys.map fun rest => label ++ letter :: rest) ⊆
      (node label children content).keys := by
    intro key hkey
    rcases List.mem_cons.mp hkey with rfl | hkey
    · exact hextra
    · rcases List.mem_map.mp hkey with ⟨rest, hrest, rfl⟩
      exact mem_keys.mpr (by simpa using mem_keys.mp hrest)
  have hle := (hnodup.subperm hsub).length_le
  simpa using hle

theorem label_prefix_of_lookup {label key : List (Fin n)} {children : Fin n → Patricia n β}
    {content : Option β} {c : β} (h : (node label children content).lookup key = some c) :
    label <+: key := by
  by_contra hno
  simp [lookup_eq_none_of hno] at h

/-- A normal tree is determined by its map. -/
theorem Normal.eq_of_lookup {t t' : Patricia n β} (ht : t.Normal) (ht' : t'.Normal)
    (h : ∀ key, t.lookup key = t'.lookup key) : t = t' := by
  induction t generalizing t' with
  | nil =>
      by_contra hne
      rcases ht'.exists_lookup (Ne.symm hne) with ⟨key, c, hkey⟩
      simp [← h] at hkey
  | node label children content ih =>
      cases t' with
      | nil =>
          rcases ht.exists_lookup (by simp) with ⟨key, c, hkey⟩
          simp [h] at hkey
      | node label' children' content' =>
          -- each label is a start of all keys of the common map, hence of the other label
          have hle : label' <+: label := by
            refine ht.prefix_label ?_
            intro key c hkey
            exact label_prefix_of_lookup ((h key).symm.trans hkey)
          have hge : label <+: label' := by
            refine ht'.prefix_label ?_
            intro key c hkey
            exact label_prefix_of_lookup ((h key).trans hkey)
          obtain rfl : label = label' := hge.eq_of_length (le_antisymm hge.length_le hle.length_le)
          have hcontent : content = content' := by simpa using h label
          have hchildren : children = children' := by
            funext letter
            refine ih letter (ht.child letter) (ht'.child letter) ?_
            intro rest
            simpa using h (label ++ letter :: rest)
          rw [hcontent, hchildren]

/-! ## Contents that know their key -/

section Located

variable (keyOf : β → List (Fin n))

/-- The tree hangs at `path`, and each content is found under its own key. -/
def Located (path : List (Fin n)) (t : Patricia n β) : Prop :=
  ∀ key c, t.lookup key = some c → keyOf c = path ++ key

variable {keyOf} {path : List (Fin n)}

theorem Located.content {label : List (Fin n)} {children : Fin n → Patricia n β} {content : Option β}
    (h : Located keyOf path (node label children content)) {c : β} (hc : content = some c) :
    keyOf c = path ++ label :=
  h label c (by simpa using hc)

theorem Located.child {label : List (Fin n)} {children : Fin n → Patricia n β} {content : Option β}
    (h : Located keyOf path (node label children content)) (letter : Fin n) :
    Located keyOf (path ++ label ++ [letter]) (children letter) := by
  intro key c hc
  have := h (label ++ letter :: key) c (by simpa using hc)
  simpa using this

/-- In a located tree a content is found exactly under its own key. -/
theorem Located.lookup_eq_some {t : Patricia n β} (h : Located keyOf path t) {key : List (Fin n)}
    {c : β} : t.lookup key = some c ↔ c ∈ t.contents ∧ keyOf c = path ++ key := by
  constructor
  · intro hc
    exact ⟨mem_contents.mpr ⟨key, hc⟩, h key c hc⟩
  · rintro ⟨hmem, hkey⟩
    rcases mem_contents.mp hmem with ⟨key', hc⟩
    obtain rfl : key' = key := List.append_cancel_left ((h key' c hc).symm.trans hkey)
    exact hc

/-- A walk through a located tree meets the contents in the order of their keys. -/
theorem Located.map_contents {t : Patricia n β} (h : Located keyOf path t) :
    t.contents.map keyOf = t.keys.map (path ++ ·) := by
  induction t generalizing path with
  | nil => rfl
  | node label children content ih =>
      have hchild : ∀ letter, ((children letter).contents.map keyOf) =
          ((children letter).keys.map fun rest => label ++ letter :: rest).map (path ++ ·) := by
        intro letter
        rw [ih letter (h.child letter), List.map_map]
        refine List.map_congr_left ?_
        intro rest _
        simp
      have hown : content.toList.map keyOf = (content.toList.map fun _ => label).map (path ++ ·) := by
        cases content with
        | none => rfl
        | some c => exact congrArg (fun key => [key]) (h.content rfl)
      simp only [contents, keys, List.map_append, List.map_flatMap, hchild, hown]

theorem Located.pairwise_contents {t : Patricia n β} (h : Located keyOf path t) :
    (t.contents.map keyOf).Pairwise (· < ·) := by
  rw [h.map_contents, List.pairwise_map]
  exact t.pairwise_keys.imp fun hlt => List.append_left_lt hlt

/-- Two located trees with the same path and the same contents have the same map. -/
theorem Located.lookup_congr {t t' : Patricia n β} (h : Located keyOf path t)
    (h' : Located keyOf path t') (hcontents : ∀ c, c ∈ t.contents ↔ c ∈ t'.contents)
    (key : List (Fin n)) : t.lookup key = t'.lookup key := by
  refine Option.ext ?_
  intro c
  rw [h.lookup_eq_some, h'.lookup_eq_some, hcontents]

theorem Located.prefix_of_mem {label : List (Fin n)} {children : Fin n → Patricia n β}
    {content : Option β} (h : Located keyOf path (node label children content)) {c : β}
    (hc : c ∈ (node label children content).contents) : path ++ label <+: keyOf c := by
  rcases mem_contents.mp hc with ⟨key, hkey⟩
  rw [h key c hkey]
  exact (List.prefix_append_right_inj path).mpr (label_prefix_of_lookup hkey)

/-- The place where a node branches is the longest common start of the keys of its contents. -/
theorem Normal.prefix_of_forall_mem {label : List (Fin n)} {children : Fin n → Patricia n β}
    {content : Option β} (hn : (node label children content).Normal)
    (h : Located keyOf path (node label children content)) {p : List (Fin n)}
    (hp : ∀ c ∈ (node label children content).contents, p <+: keyOf c) : p <+: path ++ label := by
  cases content with
  | some c =>
      rw [← h.content rfl]
      exact hp c (mem_contents_node.mpr (.inl rfl))
  | none =>
      rcases hn.2 rfl with ⟨a, b, hab, ha, hb⟩
      rcases (hn.child a).exists_lookup ha with ⟨ka, ca, hka⟩
      rcases (hn.child b).exists_lookup hb with ⟨kb, cb, hkb⟩
      have hpa := hp ca (mem_contents_node.mpr (.inr ⟨a, mem_contents.mpr ⟨ka, hka⟩⟩))
      have hpb := hp cb (mem_contents_node.mpr (.inr ⟨b, mem_contents.mpr ⟨kb, hkb⟩⟩))
      rw [h.child a ka ca hka, List.append_assoc, List.singleton_append] at hpa
      rw [h.child b kb cb hkb, List.append_assoc, List.singleton_append] at hpb
      exact isPrefix_of_two hab hpa hpb

/-- A content below one letter is not found at the node itself. -/
theorem Located.child_ne_content {label : List (Fin n)} {children : Fin n → Patricia n β}
    {content : Option β} (h : Located keyOf path (node label children content)) {letter : Fin n}
    {c : β} (hc : c ∈ (children letter).contents) : content ≠ some c := by
  intro hcontent
  rcases mem_contents.mp hc with ⟨key, hkey⟩
  have hlen := congrArg List.length ((h.content hcontent).symm.trans (h.child letter key c hkey))
  simp at hlen

/-- A content is below at most one letter. -/
theorem Located.letter_unique {label : List (Fin n)} {children : Fin n → Patricia n β}
    {content : Option β} (h : Located keyOf path (node label children content)) {a b : Fin n}
    {c : β} (ha : c ∈ (children a).contents) (hb : c ∈ (children b).contents) : a = b := by
  rcases mem_contents.mp ha with ⟨ka, hka⟩
  rcases mem_contents.mp hb with ⟨kb, hkb⟩
  have hkeys := (h.child a ka c hka).symm.trans (h.child b kb c hkb)
  simp only [List.append_assoc, List.singleton_append, List.append_cancel_left_eq] at hkeys
  exact (List.cons.inj hkeys).1

/-- A located content of a node sits where its key says: at the node or below its next letter. -/
theorem Located.mem_child_iff {label : List (Fin n)} {children : Fin n → Patricia n β}
    {content : Option β} (h : Located keyOf path (node label children content)) {letter : Fin n}
    {c : β} : c ∈ (children letter).contents ↔
      c ∈ (node label children content).contents ∧ path ++ label ++ [letter] <+: keyOf c := by
  constructor
  · intro hc
    rcases mem_contents.mp hc with ⟨key, hkey⟩
    refine ⟨mem_contents_node.mpr (.inr ⟨letter, hc⟩), ?_⟩
    rw [h.child letter key c hkey]
    exact List.prefix_append _ _
  · rintro ⟨hc, hpre⟩
    rcases mem_contents_node.mp hc with hcontent | ⟨letter', hc'⟩
    · rw [h.content hcontent] at hpre
      have := hpre.length_le
      simp at this
    · rcases mem_contents.mp hc' with ⟨key, hkey⟩
      rw [h.child letter' key c hkey, List.append_assoc (path ++ label),
        List.prefix_append_right_inj, List.singleton_append, List.cons_prefix_cons] at hpre
      exact hpre.1 ▸ hc'

/-- Where a normal located node hangs decides its label, and nothing else: trees with the same
contents branch at the same place and agree below it. -/
theorem node_eq_of_contents {path' label label' : List (Fin n)} {children children' : Fin n → Patricia n β}
    {content content' : Option β} (hn : (node label children content).Normal)
    (hn' : (node label' children' content').Normal)
    (h : Located keyOf path (node label children content))
    (h' : Located keyOf path' (node label' children' content'))
    (hcontents : ∀ c, c ∈ (node label children content).contents ↔
      c ∈ (node label' children' content').contents) :
    path ++ label = path' ++ label' ∧ children = children' ∧ content = content' := by
  -- each of the two paths is a prefix of all keys, and of the other path
  have hle : path ++ label <+: path' ++ label' := by
    refine hn'.prefix_of_forall_mem h' ?_
    intro c hc
    exact h.prefix_of_mem ((hcontents c).mpr hc)
  have hge : path' ++ label' <+: path ++ label := by
    refine hn.prefix_of_forall_mem h ?_
    intro c hc
    exact h'.prefix_of_mem ((hcontents c).mp hc)
  have hpath : path ++ label = path' ++ label' :=
    hle.eq_of_length (le_antisymm hle.length_le hge.length_le)
  refine ⟨hpath, ?_, ?_⟩
  -- below a letter are the contents whose keys go on with it
  · funext letter
    have hloc' : Located keyOf (path ++ label ++ [letter]) (children' letter) := by
      rw [hpath]
      exact h'.child letter
    refine (hn.child letter).eq_of_lookup (hn'.child letter) ?_
    refine (h.child letter).lookup_congr hloc' ?_
    intro c
    rw [h.mem_child_iff, h'.mem_child_iff, hcontents, hpath]
  · refine Option.ext ?_
    intro c
    have hat : ∀ {p l : List (Fin n)} {ch : Fin n → Patricia n β} {v : Option β},
        Located keyOf p (node l ch v) →
          (v = some c ↔ c ∈ (node l ch v).contents ∧ keyOf c = p ++ l) := by
      intro p l ch v hl
      rw [← hl.lookup_eq_some, lookup_label]
    rw [hat h, hat h', hcontents, hpath]

end Located

/-! ## Subtrees -/

/-- The nodes of a tree, each with the tree below it. -/
def Subtree (s : Patricia n β) : Patricia n β → Prop
  | .nil => False
  | .node label children content =>
      s = node label children content ∨ ∃ letter, Subtree s (children letter)

theorem Subtree.refl {t : Patricia n β} (h : t ≠ nil) : Subtree t t := by
  cases t with
  | nil => exact absurd rfl h
  | node label children content => exact .inl rfl

theorem Subtree.ne_nil {s t : Patricia n β} (h : Subtree s t) : s ≠ nil := by
  induction t with
  | nil => exact absurd h (by simp [Subtree])
  | node label children content ih =>
      rcases h with rfl | ⟨letter, h⟩
      · simp
      · exact ih letter h

theorem Subtree.normal {s t : Patricia n β} (h : Subtree s t) (ht : t.Normal) : s.Normal := by
  induction t with
  | nil => exact absurd h (by simp [Subtree])
  | node label children content ih =>
      rcases h with rfl | ⟨letter, h⟩
      · exact ht
      · exact ih letter h (ht.child letter)

theorem Subtree.trans {r s t : Patricia n β} (h : Subtree r s) (h' : Subtree s t) : Subtree r t := by
  induction t with
  | nil => exact absurd h' (by simp [Subtree])
  | node label children content ih =>
      rcases h' with rfl | ⟨letter, h'⟩
      · exact h
      · exact .inr ⟨letter, ih letter h'⟩

theorem Subtree.mem_contents {s t : Patricia n β} (h : Subtree s t) {c : β} (hc : c ∈ s.contents) :
    c ∈ t.contents := by
  induction t with
  | nil => exact absurd h (by simp [Subtree])
  | node label children content ih =>
      rcases h with rfl | ⟨letter, h⟩
      · exact hc
      · exact mem_contents_node.mpr (.inr ⟨letter, ih letter h⟩)

theorem Subtree.located {keyOf : β → List (Fin n)} {path : List (Fin n)} {s t : Patricia n β}
    (h : Subtree s t) (ht : Located keyOf path t) : ∃ path', Located keyOf path' s := by
  induction t generalizing path with
  | nil => exact absurd h (by simp [Subtree])
  | node label children content ih =>
      rcases h with rfl | ⟨letter, h⟩
      · exact ⟨path, ht⟩
      · exact ih letter h (ht.child letter)

/-- A proper subtree of a normal located tree misses some content. -/
theorem exists_mem_not_mem_child {keyOf : β → List (Fin n)} {path label : List (Fin n)}
    {children : Fin n → Patricia n β} {content : Option β} (hn : (node label children content).Normal)
    (h : Located keyOf path (node label children content)) (letter : Fin n) :
    ∃ c ∈ (node label children content).contents, c ∉ (children letter).contents := by
  cases content with
  | some c =>
      refine ⟨c, mem_contents_node.mpr (.inl rfl), ?_⟩
      intro hc
      exact h.child_ne_content hc rfl
  | none =>
      -- one of the two subtrees hangs below another letter
      rcases hn.2 rfl with ⟨a, b, hab, ha, hb⟩
      obtain ⟨d, hd, hdne⟩ : ∃ d, d ≠ letter ∧ children d ≠ nil := by
        by_cases hal : a = letter
        · exact ⟨b, fun hbl => hab (hal.trans hbl.symm), hb⟩
        · exact ⟨a, hal, ha⟩
      rcases (hn.child d).exists_mem hdne with ⟨c, hc⟩
      refine ⟨c, mem_contents_node.mpr (.inr ⟨d, hc⟩), ?_⟩
      intro hc'
      exact hd (h.letter_unique hc hc')

/-- In a normal located tree a subtree is determined by its contents. -/
theorem subtree_eq_of_contents {keyOf : β → List (Fin n)} {path : List (Fin n)} {s s' t : Patricia n β}
    (hn : t.Normal) (h : Located keyOf path t) (hs : Subtree s t) (hs' : Subtree s' t)
    (hcontents : ∀ c, c ∈ s.contents ↔ c ∈ s'.contents) : s = s' := by
  induction t generalizing path with
  | nil => exact absurd hs (by simp [Subtree])
  | node label children content ih =>
      rcases hs with rfl | ⟨letter, hs⟩
      · rcases hs' with rfl | ⟨letter', hs'⟩
        · rfl
        · rcases exists_mem_not_mem_child hn h letter' with ⟨c, hc, hno⟩
          exact absurd (hs'.mem_contents ((hcontents c).mp hc)) hno
      · rcases hs' with rfl | ⟨letter', hs'⟩
        · rcases exists_mem_not_mem_child hn h letter with ⟨c, hc, hno⟩
          exact absurd (hs.mem_contents ((hcontents c).mpr hc)) hno
        · rcases (hs.normal (hn.child letter)).exists_mem hs.ne_nil with ⟨c, hc⟩
          obtain rfl : letter = letter' := h.letter_unique (hs.mem_contents hc)
            (hs'.mem_contents ((hcontents c).mp hc))
          exact ih letter (hn.child letter) (h.child letter) hs hs'

/-! ## Digests -/

/-- Walks over two lists that skip the same way and agree where they do not skip. -/
theorem flatMap_eq_of_filterMap_eq {α γ δ : Type} {l l' : List α} {f f' : α → Option γ}
    {g g' : α → List δ} (h : l.filterMap f = l'.filterMap f') (hf : ∀ a, f a = none → g a = [])
    (hf' : ∀ a, f' a = none → g' a = [])
    (hg : ∀ a b x, f a = some x → f' b = some x → g a = g' b) : l.flatMap g = l'.flatMap g' := by
  induction l generalizing l' with
  | nil =>
      have hnone := List.filterMap_eq_nil_iff.mp h.symm
      have hskip : l'.flatMap g' = [] :=
        List.flatMap_eq_nil_iff.mpr fun a ha => hf' a (hnone a ha)
      rw [hskip, List.flatMap_nil]
  | cons a l ih =>
      cases hfa : f a with
      | none =>
          rw [List.filterMap_cons_none hfa] at h
          rw [List.flatMap_cons, hf a hfa, List.nil_append, ih h]
      | some x =>
          rw [List.filterMap_cons_some hfa] at h
          rcases List.filterMap_eq_cons_iff.mp h.symm with ⟨l₁, b, l₂, rfl, hskip, hb, hrest⟩
          have hskip' : l₁.flatMap g' = [] :=
            List.flatMap_eq_nil_iff.mpr fun a ha => hf' a (hskip a ha)
          rw [List.flatMap_append, List.flatMap_cons, List.flatMap_cons, hskip', List.nil_append,
            hg a b x hfa hb, ih hrest.symm]

section Digest

variable {H : Type} (combine : List H → Option β → H)

/-- A hash over the digests of the subtrees in order and the content. -/
def digest : Patricia n β → Option H
  | .nil => none
  | .node _ children content =>
      some (combine ((List.finRange n).filterMap fun letter => (children letter).digest) content)

/-- The digests of the subtrees, in order. -/
def childDigests (children : Fin n → Patricia n β) : List H :=
  (List.finRange n).filterMap fun letter => (children letter).digest combine

@[simp] theorem digest_nil : (nil : Patricia n β).digest combine = none := rfl

@[simp] theorem digest_node (label : List (Fin n)) (children : Fin n → Patricia n β)
    (content : Option β) : (node label children content).digest combine =
      some (combine (childDigests combine children) content) := rfl

variable {combine}

theorem digest_eq_none {t : Patricia n β} : t.digest combine = none ↔ t = nil := by
  cases t with
  | nil => simp
  | node label children content => simp

/-- All that the digests of `t` are computed from lies in `inputs`. -/
def Covered (combine : List H → Option β → H) (inputs : Set (List H × Option β)) (t : Patricia n β) :
    Prop :=
  ∀ label children content, Subtree (node label children content) t →
    (childDigests combine children, content) ∈ inputs

theorem Covered.child {inputs : Set (List H × Option β)} {label : List (Fin n)}
    {children : Fin n → Patricia n β} {content : Option β}
    (h : Covered combine inputs (node label children content)) (letter : Fin n) :
    Covered combine inputs (children letter) := by
  intro label' children' content' hs
  exact h label' children' content' (.inr ⟨letter, hs⟩)

/-- Where the hash has no collision, the digest determines the contents, in order. -/
theorem contents_eq_of_digest {inputs : Set (List H × Option β)}
    (hinj : Set.InjOn (Function.uncurry combine) inputs) {t t' : Patricia n β}
    (h : Covered combine inputs t) (h' : Covered combine inputs t')
    (hdigest : t.digest combine = t'.digest combine) : t.contents = t'.contents := by
  induction t generalizing t' with
  | nil => rw [digest_eq_none.mp hdigest.symm]
  | node label children content ih =>
      cases t' with
      | nil => simp at hdigest
      | node label' children' content' =>
          have hin := h label children content (.inl rfl)
          have hin' := h' label' children' content' (.inl rfl)
          -- equal digests come from equal inputs: the same children's digests and the same content
          have hpre := hinj hin hin' (by simpa using hdigest)
          rcases Prod.mk.inj hpre with ⟨hchildren, rfl⟩
          have hbelow : (List.finRange n).flatMap (fun letter => (children letter).contents) =
              (List.finRange n).flatMap (fun letter => (children' letter).contents) := by
            refine flatMap_eq_of_filterMap_eq hchildren ?_ ?_ ?_
            · intro letter hnone
              rw [digest_eq_none.mp hnone, contents_nil]
            · intro letter hnone
              rw [digest_eq_none.mp hnone, contents_nil]
            · intro a b x ha hb
              exact ih a (h.child a) (h'.child b) (ha.trans hb.symm)
          rw [contents, contents, hbelow]

end Digest

/-! ## Other labels on the same nodes -/

/-- The tree with the label of each node chosen anew. -/
def relabel (f : Patricia n β → List (Fin n)) : Patricia n β → Patricia n β
  | .nil => .nil
  | .node label children content =>
      .node (f (.node label children content)) (fun letter => (children letter).relabel f) content

theorem relabel_eq_nil {f : Patricia n β → List (Fin n)} {t : Patricia n β} :
    t.relabel f = nil ↔ t = nil := by
  cases t with
  | nil => simp [relabel]
  | node label children content => simp [relabel]

@[simp] theorem contents_relabel (f : Patricia n β → List (Fin n)) (t : Patricia n β) :
    (t.relabel f).contents = t.contents := by
  induction t with
  | nil => rfl
  | node label children content ih => simp only [relabel, contents, ih]

@[simp] theorem digest_relabel {H : Type} (combine : List H → Option β → H)
    (f : Patricia n β → List (Fin n)) (t : Patricia n β) :
    (t.relabel f).digest combine = t.digest combine := by
  induction t with
  | nil => rfl
  | node label children content ih => simp only [relabel, digest, ih]

theorem Normal.relabel {t : Patricia n β} (h : t.Normal) (f : Patricia n β → List (Fin n)) :
    (t.relabel f).Normal := by
  induction t with
  | nil => exact h
  | node label children content ih =>
      refine ⟨fun letter => ih letter (h.child letter), ?_⟩
      intro hnone
      rcases h.2 hnone with ⟨a, b, hab, ha, hb⟩
      exact ⟨a, b, hab, fun hnil => ha (relabel_eq_nil.mp hnil),
        fun hnil => hb (relabel_eq_nil.mp hnil)⟩

theorem Subtree.of_relabel {f : Patricia n β → List (Fin n)} {s t : Patricia n β}
    (h : Subtree s (t.relabel f)) : ∃ s₀, Subtree s₀ t ∧ s = s₀.relabel f := by
  induction t with
  | nil => exact absurd h (by simp [relabel, Subtree])
  | node label children content ih =>
      rcases h with rfl | ⟨letter, h⟩
      · exact ⟨_, .inl rfl, rfl⟩
      · rcases ih letter h with ⟨s₀, hs₀, rfl⟩
        exact ⟨s₀, .inr ⟨letter, hs₀⟩, rfl⟩

/-- A relabelled normal tree in which every key of the tree is still found has its old labels. -/
theorem relabel_eq_of_lookup {t : Patricia n β} {f : Patricia n β → List (Fin n)} (hn : t.Normal)
    (hlookup : ∀ key, (t.lookup key).isSome → ((t.relabel f).lookup key).isSome) :
    t.relabel f = t := by
  induction t with
  | nil => rfl
  | node label children content ih =>
      simp only [relabel] at hlookup ⊢
      generalize f (node label children content) = label' at hlookup ⊢
      have hle : label' <+: label := by
        refine hn.prefix_label ?_
        intro key c hkey
        rcases Option.isSome_iff_exists.mp (hlookup key (by simp [hkey])) with ⟨c', hc'⟩
        exact label_prefix_of_lookup hc'
      rcases hle with ⟨rest, rfl⟩
      -- a shorter label would send every key into one subtree, which has too few of them
      obtain rfl : rest = [] := by
        cases rest with
        | nil => rfl
        | cons letter rest =>
            have hshape : ∀ key ∈ (node (label' ++ letter :: rest) children content).keys,
                ∃ tail, key = label' ++ letter :: tail := by
              intro key hkey
              rcases Option.isSome_iff_exists.mp (mem_keys.mp hkey) with ⟨c, hc⟩
              rcases label_prefix_of_lookup hc with ⟨tail, rfl⟩
              exact ⟨rest ++ tail, by simp⟩
            have hle := length_keys_le (s := (children letter).relabel f)
              (t := node (label' ++ letter :: rest) children content)
              (g := fun key => key.drop (label'.length + 1)) ?_ ?_
            · have hlt := hn.length_keys_child_lt letter
              rw [length_keys ((children letter).relabel f), contents_relabel, ← length_keys] at hle
              omega
            · intro key hkey key' hkey' heq
              rcases hshape key hkey with ⟨tail, rfl⟩
              rcases hshape key' hkey' with ⟨tail', rfl⟩
              have htail : tail = tail' := by simpa [List.drop_append] using heq
              rw [htail]
            · intro key hkey
              rcases hshape key hkey with ⟨tail, rfl⟩
              have hfound := hlookup _ (mem_keys.mp hkey)
              rw [lookup_append_cons] at hfound
              have hdrop : (label' ++ letter :: tail).drop (label'.length + 1) = tail := by
                simp [List.drop_append]
              show (label' ++ letter :: tail).drop (label'.length + 1) ∈ _
              rw [hdrop]
              exact mem_keys.mpr hfound
      rw [List.append_nil] at hlookup ⊢
      congr 1
      funext letter
      refine ih letter (hn.child letter) ?_
      intro key hkey
      have := hlookup (label' ++ letter :: key) (by simpa using hkey)
      simpa using this

/-! ## Labels over the time -/

/-- The label of a node, told by its children and its content, in the newest of some trees that has it;
`label` if none does. The newest tree comes first. -/
inductive Labelled (children : Fin n → Patricia n β) (content : Option β) (label : List (Fin n)) :
    List (Patricia n β) → List (Fin n) → Prop
  | unchanged : Labelled children content label [] label
  | newest {label' : List (Fin n)} {t : Patricia n β} {trees : List (Patricia n β)} :
      Subtree (node label' children content) t →
        Labelled children content label (t :: trees) label'
  | earlier {label' : List (Fin n)} {t : Patricia n β} {trees : List (Patricia n β)} :
      (∀ other, ¬ Subtree (node other children content) t) →
        Labelled children content label trees label' →
        Labelled children content label (t :: trees) label'

/-- Each node of the tree has its label still in the newest of the later trees that have the node. -/
def KeepsLabels (t : Patricia n β) (later : List (Patricia n β)) : Prop :=
  ∀ label children content, Subtree (node label children content) t →
    Labelled children content label later label

theorem exists_labelled (children : Fin n → Patricia n β) (content : Option β)
    (label : List (Fin n)) (trees : List (Patricia n β)) :
    ∃ label', Labelled children content label trees label' := by
  induction trees with
  | nil => exact ⟨label, .unchanged⟩
  | cons t trees ih =>
      by_cases h : ∃ other, Subtree (node other children content) t
      · rcases h with ⟨other, hother⟩
        exact ⟨other, .newest hother⟩
      · rcases ih with ⟨label', hlabel'⟩
        exact ⟨label', .earlier (not_exists.mp h) hlabel'⟩

end Patricia

end Library
end UniqysKit
