import UniqysKit.Library.Patricia
import UniqysKit.MerklePatriciaTrie.Trie

/-!
# Nodes as trees

The node operations of the source, read as operations on path-compressed trees.  A child resolves to
a tree when the hashes in it lead to stored nodes with the labels of the tree.  Each operation then
has one statement: it does not throw, and the tree of its result has the map one expects.
-/

namespace UniqysKit

open Library

abbrev TrieTree := Library.Patricia 16 Content

namespace Content

/-- The half bytes a content is found under. -/
def nibbles (content : Content) : Key := Key.bufferToKey content.key

end Content

/-- The hash of a node as a function of what it covers. -/
def combine (c : Crypto) (hashes : List Hash) (content : Option Content) : Hash :=
  PreImage.hash c (hashes, content)

section Representation

variable (c : Crypto)

/-- The reference to a stored tree. -/
def refOf (t : TrieTree) : Child := Child.ofOptionalHash (t.digest (combine c))

/-- The topmost node of a stored tree. -/
def record (label : Key) (children : Fin 16 → TrieTree) (content : Option Content) : Node :=
  ⟨label, fun i => refOf c (children i), content⟩

@[simp] theorem refOf_nil : refOf c .nil = .none := rfl

@[simp] theorem refOf_node (label : Key) (children : Fin 16 → TrieTree) (content : Option Content) :
    refOf c (.node label children content) =
      .ofHash (combine c (Patricia.childDigests (combine c) children) content) := rfl

@[simp] theorem hash_refOf (t : TrieTree) : (refOf c t).hash c = t.digest (combine c) := by
  cases t with
  | nil => rfl
  | node label children content => rfl

theorem preImage_record (label : Key) (children : Fin 16 → TrieTree) (content : Option Content) :
    (record c label children content).preImage c =
      (Patricia.childDigests (combine c) children, content) := by
  simp only [Node.preImage, record, hash_refOf, Patricia.childDigests]

theorem hash_record (label : Key) (children : Fin 16 → TrieTree) (content : Option Content) :
    (record c label children content).hash c =
      combine c (Patricia.childDigests (combine c) children) content := by
  rw [Node.hash, preImage_record, combine]

/-- Every node of the tree is stored under its hash, with its own label. -/
def Stored (st : TrieStore) (t : TrieTree) : Prop :=
  ∀ label children content, Patricia.Subtree (.node label children content) t →
    st.get ((record c label children content).hash c) = .ok (record c label children content) ∧
      record c label children content ∈ st.saved

/-- The tree a child stands for. What is behind a hash is stored and normal. -/
def Resolves (st : TrieStore) : Child → TrieTree → Prop
  | .none, t => t = .nil
  | .ofHash hash, t =>
      t.digest (combine c) = some hash ∧ Stored c st t ∧ t.Normal
  | .ofNode keyPrefix children content, t =>
      ∃ below, t = .node keyPrefix below content ∧ ∀ i, Resolves st (children i) (below i)

/-- The tree a node stands for. -/
def NodeResolves (st : TrieStore) (node : Node) (t : TrieTree) : Prop :=
  ∃ below, t = .node node.keyPrefix below node.content ∧
    ∀ i, Resolves c st (node.children i) (below i)

variable {c} {st : TrieStore}

theorem Stored.child {label : Key} {children : Fin 16 → TrieTree} {content : Option Content}
    (h : Stored c st (.node label children content)) (letter : Fin 16) :
    Stored c st (children letter) := by
  intro label' children' content' hs
  exact h label' children' content' (.inr ⟨letter, hs⟩)

theorem Stored.resolves {t : TrieTree} (h : Stored c st t) (hn : t.Normal) :
    Resolves c st (refOf c t) t := by
  cases t with
  | nil => rfl
  | node label children content => exact ⟨rfl, h, hn⟩

theorem Stored.nodeResolves {label : Key} {children : Fin 16 → TrieTree} {content : Option Content}
    (h : Stored c st (.node label children content))
    (hn : (Patricia.node label children content).Normal) :
    NodeResolves c st (record c label children content) (.node label children content) :=
  ⟨children, rfl, fun i => (h.child i).resolves (hn.child i)⟩

/-- Following a child leads to the topmost node of its tree. -/
theorem Resolves.dereference {child : Child} {t : TrieTree} (h : Resolves c st child t) :
    (t = .nil ∧ child.dereference st = none) ∨
      ∃ node, child.dereference st = some (.ok node) ∧ NodeResolves c st node t := by
  cases child with
  | none => exact .inl ⟨h, rfl⟩
  | ofHash hash =>
      rcases h with ⟨hdigest, hstored, hn⟩
      cases t with
      | nil => simp at hdigest
      | node label children content =>
          refine .inr ⟨record c label children content, ?_, hstored.nodeResolves hn⟩
          have hget := (hstored label children content (.inl rfl)).1
          have hhash : hash = (record c label children content).hash c := by
            rw [hash_record]
            exact (Option.some.inj hdigest).symm
          rw [Child.dereference, hhash, hget]
  | ofNode keyPrefix children content => exact .inr ⟨_, rfl, h⟩

theorem Resolves.of_dereference {child : Child} {t : TrieTree} (h : Resolves c st child t)
    {result : Result Node} (hresult : child.dereference st = some result) :
    ∃ node, result = .ok node ∧ NodeResolves c st node t := by
  rcases h.dereference with ⟨-, hnone⟩ | ⟨node, hnode, hresolves⟩
  · rw [hnone] at hresult
    cases hresult
  · rw [hnode] at hresult
    exact ⟨node, (Option.some.inj hresult).symm, hresolves⟩

theorem Resolves.of_dereference_none {child : Child} {t : TrieTree} (h : Resolves c st child t)
    (hnone : child.dereference st = none) : t = .nil := by
  rcases h.dereference with ⟨hnil, -⟩ | ⟨node, hnode, -⟩
  · exact hnil
  · rw [hnode] at hnone
    cases hnone

theorem Resolves.hash {child : Child} {t : TrieTree} (h : Resolves c st child t) :
    child.hash c = t.digest (combine c) := by
  induction child generalizing t with
  | none =>
      subst h
      rfl
  | ofHash hash => exact h.1.symm
  | ofNode keyPrefix children content ih =>
      rcases h with ⟨below, rfl, hbelow⟩
      simp only [Child.hash, Patricia.digest_node, Patricia.childDigests, ih _ (hbelow _), combine]

theorem resolves_none : Resolves c st (Child.ofOptionalNode none) .nil := rfl

theorem NodeResolves.toChild {node : Node} {t : TrieTree} (h : NodeResolves c st node t) :
    Resolves c st (Child.ofOptionalNode (some node)) t := h

theorem resolves_emptyBranch (i : Fin 16) : Resolves c st (Node.emptyBranch i) .nil := rfl

theorem nodeResolves_null : NodeResolves c st Node.null (.node [] (fun _ => .nil) none) :=
  ⟨fun _ => .nil, rfl, fun _ => rfl⟩

/-- A node with another child below one letter. -/
theorem NodeResolves.update {keyPrefix : Key} {children : Fin 16 → Child}
    {below : Fin 16 → TrieTree} (h : ∀ i, Resolves c st (children i) (below i)) {child : Child}
    {t : TrieTree} (hchild : Resolves c st child t) (letter : Fin 16) (content : Option Content) :
    NodeResolves c st ⟨keyPrefix, Function.update children letter child, content⟩
      (.node keyPrefix (Function.update below letter t) content) := by
  refine ⟨_, rfl, ?_⟩
  intro i
  by_cases hi : i = letter
  · subst hi
    simpa using hchild
  · simpa [hi] using h i

end Representation

/-! ## Reading -/

namespace Key

theorem append_remain2 {key1 key2 : Key} (h : («match» key1 key2).remain1 = []) :
    key2 = key1 ++ («match» key1 key2).remain2 := by
  rcases match_spec key1 key2 with ⟨h1, h2, -⟩
  rw [h, List.append_nil] at h1
  rw [← h1] at h2
  exact h2

theorem eq_of_remain {key1 key2 : Key} (h1 : («match» key1 key2).remain1 = [])
    (h2 : («match» key1 key2).remain2 = []) : key2 = key1 := by
  have hkey := append_remain2 h1
  rw [h2, List.append_nil] at hkey
  exact hkey

theorem eq_append_cons {key1 key2 rest : Key} {letter : Fin 16}
    (h1 : («match» key1 key2).remain1 = []) (h2 : («match» key1 key2).remain2 = letter :: rest) :
    key2 = key1 ++ letter :: rest := by
  have hkey := append_remain2 h1
  rw [h2] at hkey
  exact hkey

theorem not_start {key1 key2 rest : Key} {letter : Fin 16}
    (h : («match» key1 key2).remain1 = letter :: rest) : ¬ key1 <+: key2 := by
  rintro ⟨tail, rfl⟩
  simp at h

theorem prefix_of_remain {key1 key2 : Key} (h : («match» key1 key2).remain2 = []) :
    key2 <+: key1 := by
  rcases match_spec key1 key2 with ⟨h1, h2, -⟩
  rw [h, List.append_nil] at h2
  exact ⟨(«match» key1 key2).remain1, by rw [← h2] at h1; exact h1.symm⟩

/-- Keys that part have no common continuation. -/
theorem not_both_start {key1 key2 rest1 rest2 k : Key} {letter1 letter2 : Fin 16}
    (h1 : («match» key1 key2).remain1 = letter1 :: rest1)
    (h2 : («match» key1 key2).remain2 = letter2 :: rest2) (hk : key2 <+: k) : ¬ key1 <+: k := by
  rcases match_spec key1 key2 with ⟨hkey1, hkey2, hne⟩
  rw [h1] at hkey1
  rw [h2] at hkey2
  rintro hk'
  rw [hkey1] at hk'
  rw [hkey2] at hk
  rcases hk' with ⟨tail1, htail1⟩
  rcases hk with ⟨tail2, htail2⟩
  have heq := htail1.trans htail2.symm
  simp only [List.append_assoc, List.append_cancel_left_eq, List.cons_append,
    List.cons.injEq] at heq
  exact hne letter1 letter2 rest1 rest2 h1 h2 heq.1

end Key

section Operations

variable {c : Crypto} {st : TrieStore}

theorem NodeResolves.get {node : Node} {t : TrieTree} (h : NodeResolves c st node t) (key : Key) :
    node.get st key = .ok (t.lookup key) := by
  fun_induction Node.get st node key generalizing t with
  | case1 =>
      rename_i node key _ letter rest hremain
      rcases h with ⟨below, rfl, -⟩
      rw [Patricia.lookup_eq_none_of (Key.not_start hremain)]
  | case2 =>
      rename_i node key _ hrest hremain
      rcases h with ⟨below, rfl, -⟩
      rw [Key.eq_of_remain hremain hrest, Patricia.lookup_label]
  | case3 =>
      rename_i node key _ letter rest hrest hremain child hchild ih
      rcases h with ⟨below, rfl, hbelow⟩
      rcases (hbelow letter).of_dereference hchild with ⟨next, rfl, hnext⟩
      rw [Result.ok_bind, ih next hnext, Key.eq_append_cons hremain hrest,
        Patricia.lookup_append_cons]
  | case4 =>
      rename_i node key _ letter rest hrest hremain hchild
      rcases h with ⟨below, rfl, hbelow⟩
      rw [Key.eq_append_cons hremain hrest, Patricia.lookup_append_cons,
        (hbelow letter).of_dereference_none hchild, Patricia.lookup_nil]

/-! ## Writing in memory -/

theorem NodeResolves.set {node : Node} {t : TrieTree} (h : NodeResolves c st node t) (key : Key)
    (content : Content) :
    ∃ node' t', node.set st key content = .ok node' ∧ NodeResolves c st node' t' ∧
      ∀ k, t'.lookup k = if k = key then some content else t.lookup k := by
  fun_induction Node.set st node key content generalizing t with
  | case1 =>
      rename_i node key _ hremain hrest
      rcases h with ⟨below, rfl, hbelow⟩
      refine ⟨_, _, rfl, ⟨below, rfl, hbelow⟩, ?_⟩
      intro k
      rw [Key.eq_of_remain hremain hrest, Patricia.lookup_content]
  | case2 =>
      rename_i node key _ letter rest hremain hrest _ child hchild ih
      rcases h with ⟨below, rfl, hbelow⟩
      rcases (hbelow letter).of_dereference hchild with ⟨next, rfl, hnext⟩
      rcases ih next hnext with ⟨next', s, hset, hs, hlookup⟩
      refine ⟨_, _, by simp only [Result.ok_bind, hset]; rfl,
        .update hbelow hs.toChild letter _, ?_⟩
      intro k
      have hkey := Key.eq_append_cons hremain hrest
      refine Patricia.lookup_update (· = key) ?_ fun hk => ⟨rest, hk.trans hkey⟩
      intro tail
      rw [hlookup, hkey]
      simp
  | case3 =>
      rename_i node key _ letter rest hremain hrest _ hchild
      rcases h with ⟨below, rfl, hbelow⟩
      have hnil := (hbelow letter).of_dereference_none hchild
      have hleaf : NodeResolves c st ⟨rest, Node.emptyBranch, some content⟩
          (.node rest (fun _ => .nil) (some content)) := ⟨fun _ => .nil, rfl, fun _ => rfl⟩
      refine ⟨_, _, rfl, .update hbelow hleaf.toChild letter _, ?_⟩
      intro k
      have hkey := Key.eq_append_cons hremain hrest
      refine Patricia.lookup_update (· = key) ?_ fun hk => ⟨rest, hk.trans hkey⟩
      intro tail
      rw [Patricia.lookup_leaf, hnil, hkey]
      simp
  | case4 =>
      rename_i node key matchResult letter rest hremain moved ih
      rcases h with ⟨below, rfl, hbelow⟩
      have hlabel := (Key.match_spec node.keyPrefix key).1
      -- the moved node hangs where the keys part; the map is unchanged
      have hmoved : NodeResolves c st ⟨rest, node.children, node.content⟩
          (.node rest below node.content) := ⟨below, rfl, hbelow⟩
      have hsplit : NodeResolves c st
          ⟨matchResult.keyPrefix, Function.update Node.emptyBranch letter moved, none⟩
          (.node matchResult.keyPrefix (Function.update (fun _ => .nil) letter
            (.node rest below node.content)) none) :=
        .update resolves_emptyBranch hmoved.toChild letter none
      rcases ih hsplit with ⟨node', t', hset, hresolves, hlookup⟩
      refine ⟨node', t', hset, hresolves, ?_⟩
      intro k
      have hmerge : (Patricia.node node.keyPrefix below node.content).lookup k =
          (Patricia.node matchResult.keyPrefix (Function.update (fun _ => .nil) letter
            (.node rest below node.content)) none).lookup k := by
        rw [hlabel, hremain]
        refine Patricia.lookup_merge (by simp) ?_ k
        intro other hother
        simp [hother]
      rw [hlookup, hmerge]

theorem NodeResolves.delete {node : Node} {t : TrieTree} (h : NodeResolves c st node t) (key : Key) :
    ∃ node' t', node.delete st key = .ok node' ∧ NodeResolves c st node' t' ∧
      ∀ k, t'.lookup k = if k = key then none else t.lookup k := by
  fun_induction Node.delete st node key generalizing t with
  | case1 =>
      rename_i node key _ hrest hremain
      rcases h with ⟨below, rfl, hbelow⟩
      -- the key ends at this node: its content goes
      refine ⟨_, _, rfl, ⟨below, rfl, hbelow⟩, ?_⟩
      intro k
      rw [Key.eq_of_remain hremain hrest, Patricia.lookup_content]
  | case2 =>
      rename_i node key _ letter rest hrest hremain _ child hchild ih
      rcases h with ⟨below, rfl, hbelow⟩
      rcases (hbelow letter).of_dereference hchild with ⟨next, rfl, hnext⟩
      rcases ih next hnext with ⟨next', s, hdelete, hs, hlookup⟩
      refine ⟨_, _, by simp only [Result.ok_bind, Result.pure_eq, hdelete]; rfl,
        .update hbelow hs.toChild letter _, ?_⟩
      intro k
      have hkey := Key.eq_append_cons hremain hrest
      refine Patricia.lookup_update (· = key) ?_ fun hk => ⟨rest, hk.trans hkey⟩
      intro tail
      rw [hlookup, hkey]
      simp
  | case3 =>
      rename_i node key _ letter rest hrest hremain _ hchild
      rcases h with ⟨below, rfl, hbelow⟩
      -- there is no such child, so the key is not in the trie
      have hnil := (hbelow letter).of_dereference_none hchild
      refine ⟨_, _, rfl, .update hbelow resolves_none letter _, ?_⟩
      intro k
      have hkey := Key.eq_append_cons hremain hrest
      refine Patricia.lookup_update (· = key) ?_ fun hk => ⟨rest, hk.trans hkey⟩
      intro tail
      simp [hnil]
  | case4 =>
      rename_i node key _ letter rest hremain
      rcases h with ⟨below, rfl, hbelow⟩
      -- the key leaves the path within the label, and nothing changes
      refine ⟨node, _, rfl, ⟨below, rfl, hbelow⟩, ?_⟩
      intro k
      by_cases hk : k = key
      · subst hk
        rw [if_pos rfl, Patricia.lookup_eq_none_of (Key.not_start hremain)]
      · rw [if_neg hk]

theorem NodeResolves.clear {node : Node} {t : TrieTree} (h : NodeResolves c st node t) (key : Key) :
    ∃ node' t', node.clear st key = .ok node' ∧ NodeResolves c st node' t' ∧
      ∀ k, t'.lookup k = if key <+: k then none else t.lookup k := by
  fun_induction Node.clear st node key generalizing t with
  | case1 =>
      rename_i node key _ hrest
      rcases h with ⟨below, rfl, hbelow⟩
      -- the key ends within the label: the whole subtree goes
      refine ⟨Node.null, _, rfl, nodeResolves_null, ?_⟩
      intro k
      by_cases hk : key <+: k
      · simp [Patricia.lookup_leaf, hk]
      · have hno : ¬ node.keyPrefix <+: k := fun hpre => hk ((Key.prefix_of_remain hrest).trans hpre)
        simp [Patricia.lookup_leaf, hk, Patricia.lookup_eq_none_of hno]
  | case2 =>
      rename_i node key _ letter rest hrest hremain _ child hchild ih
      rcases h with ⟨below, rfl, hbelow⟩
      rcases (hbelow letter).of_dereference hchild with ⟨next, rfl, hnext⟩
      rcases ih next hnext with ⟨next', s, hdelete, hs, hlookup⟩
      refine ⟨_, _, by simp only [Result.ok_bind, Result.pure_eq, hdelete]; rfl,
        .update hbelow hs.toChild letter _, ?_⟩
      intro k
      have hkey := Key.eq_append_cons hremain hrest
      refine Patricia.lookup_update (key <+: ·) ?_ ?_
      · intro tail
        simp only [hlookup, hkey, List.prefix_append_right_inj, List.cons_prefix_cons, true_and]
      · rintro ⟨tail, rfl⟩
        exact ⟨rest ++ tail, by simp [hkey]⟩
  | case3 =>
      rename_i node key _ letter rest hrest hremain _ hchild
      rcases h with ⟨below, rfl, hbelow⟩
      -- there is no such child, so nothing is below the key
      have hnil := (hbelow letter).of_dereference_none hchild
      refine ⟨_, _, rfl, .update hbelow resolves_none letter _, ?_⟩
      intro k
      have hkey := Key.eq_append_cons hremain hrest
      refine Patricia.lookup_update (key <+: ·) ?_ ?_
      · intro tail
        simp [hnil]
      · rintro ⟨tail, rfl⟩
        exact ⟨rest ++ tail, by simp [hkey]⟩
  | case4 =>
      rename_i node key _ letter rest letter' rest' hrest hremain
      rcases h with ⟨below, rfl, hbelow⟩
      -- the key leaves the path within the label, and nothing changes
      refine ⟨node, _, rfl, ⟨below, rfl, hbelow⟩, ?_⟩
      intro k
      by_cases hk : key <+: k
      · rw [if_pos hk, Patricia.lookup_eq_none_of (Key.not_both_start hremain hrest hk)]
      · rw [if_neg hk]

/-! ## Normalizing -/

theorem promiseAll_ok {α : Type} {n : Nat} {f : Fin n → Result α} {g : Fin n → α}
    (h : ∀ i, f i = .ok (g i)) : promiseAll f = .ok g := by
  induction n with
  | zero =>
      simp only [promiseAll, Result.pure_eq]
      congr 1
      funext i
      exact i.elim0
  | succ n ih =>
      simp only [promiseAll, h 0, ih (fun i => h i.succ), Result.ok_bind, Result.pure_eq]
      congr 1
      exact Fin.cons_self_tail g

theorem mem_existingChildren {children : Fin 16 → Child} {index : Fin 16} {ref : Result Node} :
    (index, ref) ∈ Node.existingChildren st children ↔
      (children index).dereference st = some ref := by
  simp only [Node.existingChildren, List.mem_filterMap, List.mem_finRange, true_and,
    Option.map_eq_some_iff, Prod.mk.injEq]
  constructor
  · rintro ⟨i, ref', href, rfl, rfl⟩
    exact href
  · intro href
    exact ⟨index, ref, href, rfl, rfl⟩

theorem nodup_existingChildren (children : Fin 16 → Child) :
    ((Node.existingChildren st children).map Prod.fst).Nodup := by
  have hsub : (Node.existingChildren st children).map Prod.fst =
      (List.finRange 16).filter fun i => ((children i).dereference st).isSome := by
    rw [Node.existingChildren, List.map_filterMap, ← List.filterMap_eq_filter]
    congr 1
    funext i
    cases hi : (children i).dereference st with
    | none => simp [Option.guard, hi]
    | some ref => simp [Option.guard, hi]
  rw [hsub]
  exact (List.nodup_finRange 16).filter _

/-- Merging a node without content that has fewer than two children. -/
theorem collapse_resolves {children : Fin 16 → Child} {below : Fin 16 → TrieTree}
    (h : ∀ i, Resolves c st (children i) (below i)) (hn : ∀ i, (below i).Normal) (keyPrefix : Key)
    (content : Option Content) :
    ∃ node t, Node.collapse st keyPrefix children content = .ok node ∧
      Resolves c st (Child.ofOptionalNode node) t ∧ t.Normal ∧
      ∀ k, t.lookup k = (Patricia.node keyPrefix below content).lookup k := by
  have hkeep : Resolves c st (Child.ofOptionalNode (some ⟨keyPrefix, children, content⟩))
      (.node keyPrefix below content) := ⟨below, rfl, h⟩
  have hnil : ∀ i, (∀ ref, (i, ref) ∉ Node.existingChildren st children) → below i = .nil := by
    intro i hi
    refine (h i).of_dereference_none (Option.eq_none_iff_forall_ne_some.mpr ?_)
    intro ref href
    exact hi ref (mem_existingChildren.mpr href)
  have hsome : ∀ i ref, (i, ref) ∈ Node.existingChildren st children →
      ∃ node, ref = .ok node ∧ NodeResolves c st node (below i) := by
    intro i ref href
    exact (h i).of_dereference (mem_existingChildren.mp href)
  have hnodup := @nodup_existingChildren st children
  unfold Node.collapse
  -- only how many children there are matters from here on
  generalize Node.existingChildren st children = existing at hnil hsome hnodup
  cases content with
  | some content => exact ⟨_, _, rfl, hkeep, ⟨hn, fun hcontent => by cases hcontent⟩, fun k => rfl⟩
  | none =>
      rcases existing with _ | ⟨⟨index, ref⟩, _ | ⟨⟨index', ref'⟩, existing⟩⟩
      · -- no child is left: the node disappears
        obtain rfl : below = fun _ => .nil := funext fun i => hnil i (by simp)
        refine ⟨none, .nil, rfl, rfl, trivial, ?_⟩
        intro k
        simp [Patricia.lookup_leaf]
      · -- one child is left: it takes the place of the node
        rcases hsome index ref (by simp) with ⟨node, rfl, below', hbelow, hresolves⟩
        have hnormal := hn index
        rw [hbelow] at hnormal
        refine ⟨_, .node (keyPrefix ++ index :: node.keyPrefix) below' node.content, rfl,
          ⟨below', rfl, hresolves⟩, hnormal, ?_⟩
        intro k
        refine Patricia.lookup_merge hbelow ?_ k
        intro other hother
        exact hnil other (by simp [hother])
      · rcases hsome index ref (by simp) with ⟨node, -, below', hbelow, -⟩
        rcases hsome index' ref' (by simp) with ⟨node', -, below'', hbelow', -⟩
        -- two children are left, which is what a normal node without a content needs
        have hne : index ≠ index' := by
          simp only [List.map_cons, List.nodup_cons, List.mem_cons, not_or] at hnodup
          exact hnodup.1.1
        refine ⟨_, _, rfl, hkeep, ⟨hn, fun _ => ⟨index, index', hne, ?_, ?_⟩⟩, fun k => rfl⟩
        · rw [hbelow]
          simp
        · rw [hbelow']
          simp

theorem Resolves.normalize {child : Child} {t : TrieTree} (h : Resolves c st child t) :
    ∃ child' t', child.normalize st = .ok child' ∧ Resolves c st child' t' ∧ t'.Normal ∧
      ∀ k, t'.lookup k = t.lookup k := by
  induction child generalizing t with
  | none => exact ⟨.none, t, rfl, h, by subst h; trivial, fun k => rfl⟩
  | ofHash hash => exact ⟨.ofHash hash, t, rfl, h, h.2.2, fun k => rfl⟩
  | ofNode keyPrefix children content ih =>
      rcases h with ⟨below, rfl, hbelow⟩
      choose children' below' hok hresolves hnormal hlookup using fun i => ih i (hbelow i)
      obtain ⟨node, t', hcollapse, hnode, hn, hmap⟩ :=
        collapse_resolves hresolves hnormal keyPrefix content
      refine ⟨Child.ofOptionalNode node, t', ?_, hnode, hn, ?_⟩
      · simp only [Child.normalize, promiseAll_ok hok, Result.ok_bind, hcollapse, Result.pure_eq]
      · intro k
        rw [hmap, Patricia.lookup_congr hlookup]

theorem NodeResolves.normalize {node : Node} {t : TrieTree} (h : NodeResolves c st node t) :
    ∃ node' t', node.normalize st = .ok node' ∧ Resolves c st (Child.ofOptionalNode node') t' ∧
      t'.Normal ∧ ∀ k, t'.lookup k = t.lookup k := by
  rcases h with ⟨below, rfl, hbelow⟩
  choose children' below' hok hresolves hnormal hlookup using fun i => (hbelow i).normalize
  obtain ⟨node', t', hcollapse, hnode, hn, hmap⟩ :=
    collapse_resolves hresolves hnormal node.keyPrefix node.content
  refine ⟨node', t', ?_, hnode, hn, ?_⟩
  · simp only [Node.normalize, promiseAll_ok hok, Result.ok_bind, hcollapse]
  · intro k
    rw [hmap, Patricia.lookup_congr hlookup]

end Operations

end UniqysKit
