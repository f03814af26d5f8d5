import UniqysKit.EasyFramework.Contents
import UniqysKit.MerklePatriciaTrie.SteppedUpdate

/-!
# Calls, one read or write of the node store at a time

An access to the trie is not one step: the root and the nodes below it are read one by one, the new
nodes are put one by one, the new root is written, and only then it is assigned.  `Place` is where a
call is, and `Place.step` takes it to the next await.

While others read and write, a call inside of an access is as far as it would be alone
(`Place.Sound`), as long as what it has read is not replaced.  A node is replaced by one with another
label when both have the same hash.
-/

namespace UniqysKit
namespace EasyFramework

open Library

/-- An operation on the trie under way: the root hash that it began with, and what comes after it. -/
structure Update where
  op : Operation
  root : Hash
  next : Unit → Code Reply

/-- The trees that the update leads to, from what its root hash stands for. -/
def Update.Leads (c : Crypto) (st : TrieStore) (update : Update) (P : TrieTree → Prop) : Prop :=
  ∃ contents t, StandsFor c st.saved update.root contents ∧
    TreeOf (update.op.update contents) t ∧ P t

/-- Where a call is: between two accesses to the trie, or inside of one. A save remembers whether it
has replaced another node. -/
inductive Place
  | between (code : Code Reply)
  | looking (code : NodeCode (Option Content)) (next : Option Bytes → Code Reply)
  | building (update : Update) (code : NodeCode (Option Node))
  | saving (update : Update) (replaced : Bool) (root : Child)
  | rooted (update : Update) (replaced : Bool) (newRoot : Hash)

/-- What a step of a call comes to. -/
inductive Turn
  | goes (place : Place)
  | ends (answer : Except Error Reply)

namespace Place

section Definitions

variable (c : Crypto) (path : List (Fin 16)) (trie : MerklePatriciaTrie)

/-- The beginning of an access, with `checkReady`. -/
def begin (place : Place) : Turn :=
  if trie.isReady then .goes place else .ends (.error ⟨"trie is not ready"⟩)

def read (hash : Hash) (next : Node → Place) : Turn :=
  match trie.store.get hash with
  | .ok node => .goes (next node)
  | .error e => .ends (.error e)

/-- A `set` of `save`, at the end of the path; if there is nothing to set there, nothing happens. -/
def put (update : Update) (replaced : Bool) (root : Child) : Turn × MerklePatriciaTrie :=
  match root.saveAt c path with
  | some (node, rest) =>
      match TrieStore.set (node.hash c) node trie.store with
      | .ok _ store =>
          (.goes (.saving update (replaced || !trie.store.isFresh c node) rest), { trie with store })
      | .error e store => (.ends (.error e), { trie with store })
  | none => (.goes (.saving update replaced root), trie)

/-- The code up to the next await. -/
def step : Place → Turn × MerklePatriciaTrie
  | between (.done answer) => (.ends answer, trie)
  | between (.call (.get key) next) =>
      (begin trie (.looking (MerklePatriciaTrie.getCode trie.rootHash key) next), trie)
  | between (.call (.apply op) next) =>
      (begin trie (.building ⟨op, trie.rootHash, next⟩
        (MerklePatriciaTrie.updateCode trie.rootHash op)), trie)
  | looking (.call hash next) rest => (read trie hash fun node => .looking (next node) rest, trie)
  | looking (.done (.ok content)) rest =>
      (.goes (.between (rest (content.map Content.value))), trie)
  | looking (.done (.error e)) _ => (.ends (.error e), trie)
  | building update (.call hash next) =>
      (read trie hash fun node => .building update (next node), trie)
  | building update (.done (.ok normalized)) =>
      (.goes (.saving update false (Child.ofOptionalNode normalized)), trie)
  | building _ (.done (.error e)) => (.ends (.error e), trie)
  | saving update replaced root =>
      if root.isSaved then
        -- an empty trie has no node to save
        let newRoot := (root.hash c).getD (Node.null.hash c)
        (.goes (.rooted update replaced newRoot),
          { trie with store := trie.store.write TrieStore.rootKey newRoot.serialize })
      else put c path trie update replaced root
  | rooted update _ newRoot =>
      (.goes (.between (update.next ())), { trie with rootHash := newRoot })

/-- The call is inside of an access. -/
def inside : Place → Bool
  | between _ => false
  | _ => true

/-- The call has replaced a node, and not yet assigned the root. -/
def replaced : Place → Bool
  | saving _ replaced _ | rooted _ replaced _ => replaced
  | _ => false

/-- The next step begins an access. -/
def begins : Place → Bool
  | between (.call _ _) => true
  | _ => false

/-- The next step replaces a node. -/
def replaces : Place → Bool
  | saving _ _ root => (root.saveAt c path).elim false fun (node, _) => !trie.store.isFresh c node
  | _ => false

/-- The root hash that the next step is the answer to, if it assigns one. -/
def assigns : Place → Option Hash
  | rooted update _ _ => some update.root
  | _ => none

/-- The access that takes effect with the next step: one that looks, when it begins; one that changes
something, when it assigns the root. -/
def effect : Place → Option Access
  | between (.call (.get key) _) => some (.get key)
  | rooted update _ _ => some (.apply update.op)
  | _ => none

/-- What is left of the call, as code over the contents. -/
def now (st : TrieStore) : Place → Code Reply
  | between code => code
  | looking code next =>
      match code.eval st.get with
      | .ok content => next (content.map Content.value)
      | .error e => .done (.error e)
  | building update _ | saving update _ _ | rooted update _ _ =>
      .call (.apply update.op) update.next

/-- The call is as far as it would be alone. -/
def Sound (st : TrieStore) : Place → Prop
  | between _ => True
  | looking code _ => ∃ content, code.eval st.get = .ok content
  | building update code => update.Leads c st fun t => ∃ normalized,
      code.eval st.get = .ok normalized ∧ Resolves c st (Child.ofOptionalNode normalized) t
  | saving update _ root => update.Leads c st fun t => Resolves c st root t
  | rooted update _ newRoot =>
      update.Leads c st fun t => Stored c st t ∧ newRoot = rootHashOf c t

end Definitions

end Place

/-- The trie is ready and its root hash stands for these contents. Its nodes may have been replaced. -/
structure Standing (c : Crypto) (trie : MerklePatriciaTrie) (contents : Contents) : Prop where
  isReady : trie.isReady = true
  consistent : Consistent c trie.store
  standsFor : StandsFor c trie.saved trie.rootHash contents

/-- A step that does not show in the contents. -/
structure Place.Silent (c : Crypto) (path : List (Fin 16)) (contents : Contents)
    (trie trie' : MerklePatriciaTrie) (place place' : Place) : Prop where
  standing : Standing c trie' contents
  rootHash : trie'.rootHash = trie.rootHash
  now : place'.now trie'.store = place.now trie.store
  sound : place'.Sound c trie'.store
  grows : place.replaces c path trie = false → trie.store.Grows trie'.store
  replaced : place'.replaced = (place.replaced || place.replaces c path trie)

section Lemmas

variable {c : Crypto} {path : List (Fin 16)} {trie trie' : MerklePatriciaTrie} {st st' : TrieStore}
  {contents : Contents} {place : Place} {update : Update}

/-! ## The trie between accesses -/

theorem Represents.standing (h : Represents c trie contents) : Standing c trie contents := by
  rcases h with ⟨t, ht, hvalues⟩
  refine ⟨ht.isReady, ht.consistent, t, ⟨ht.normal, ht.located, hvalues⟩, ?_, ht.rootHash⟩
  intro label children content hs
  exact (ht.stored label children content hs).2

theorem Represents.grows (h : Represents c trie contents) (hstanding : Standing c trie' contents)
    (hroot : trie'.rootHash = trie.rootHash) (hgrows : trie.store.Grows trie'.store) :
    Represents c trie' contents := by
  rcases h with ⟨t, ht, hvalues⟩
  exact ⟨t, ⟨⟨hstanding.isReady, hstanding.consistent, ht.normal, ht.stored.grows hgrows,
    hroot.trans ht.rootHash⟩, ht.located⟩, hvalues⟩

/-! ## Steps of others -/

theorem Update.Leads.mono {P Q : TrieTree → Prop} (h : update.Leads c st P)
    (hsub : st.saved ⊆ st'.saved) (himp : ∀ t, P t → Q t) : update.Leads c st' Q := by
  rcases h with ⟨contents, t, hstands, htree, ht⟩
  exact ⟨contents, t, hstands.mono hsub, htree, himp t ht⟩

/-- As long as the store grows, a call stays where it is. -/
theorem Place.Sound.grows (h : place.Sound c st) (hgrows : st.Grows st') :
    place.Sound c st' ∧ place.now st' = place.now st := by
  cases place with
  | between code => exact ⟨trivial, rfl⟩
  | looking code next =>
      rcases h with ⟨content, heval⟩
      have heval' := eval_grows heval hgrows
      refine ⟨⟨content, heval'⟩, ?_⟩
      simp only [Place.now, heval, heval']
  | building update code =>
      refine ⟨?_, rfl⟩
      refine Update.Leads.mono h hgrows.saved ?_
      rintro t ⟨normalized, heval, hresolves⟩
      exact ⟨normalized, eval_grows heval hgrows, hresolves.grows hgrows⟩
  | saving update replaced root =>
      exact ⟨Update.Leads.mono h hgrows.saved fun t hresolves => hresolves.grows hgrows, rfl⟩
  | rooted update replaced newRoot =>
      refine ⟨?_, rfl⟩
      refine Update.Leads.mono h hgrows.saved ?_
      rintro t ⟨hstored, hroot⟩
      exact ⟨hstored.grows hgrows, hroot⟩

/-! ## Steps of its own -/

/-- An access that looks: what it comes to is decided when it begins. -/
theorem Represents.looking (h : Represents c trie contents) (key : Bytes)
    (next : Option Bytes → Code Reply) :
    (Place.looking (MerklePatriciaTrie.getCode trie.rootHash key) next).Sound c trie.store ∧
      (Place.looking (MerklePatriciaTrie.getCode trie.rootHash key) next).now trie.store =
        next (contents key) := by
  rcases h with ⟨t, ht, hvalues⟩
  have heval := ht.getCode key
  refine ⟨⟨_, heval⟩, ?_⟩
  simp only [Place.now, heval, hvalues]

/-- An access that changes something: what it leads to is decided when it begins. -/
theorem Represents.building (h : Represents c trie contents) (op : Operation)
    (next : Unit → Code Reply) :
    (Place.building ⟨op, trie.rootHash, next⟩
      (MerklePatriciaTrie.updateCode trie.rootHash op)).Sound c trie.store := by
  have hstands := h.standing.standsFor
  rcases h with ⟨t, ht, hvalues⟩
  rcases ht.updateCode hvalues op with ⟨normalized, t', heval, hresolves, htree⟩
  exact ⟨contents, t', hstands, htree, normalized, heval, hresolves⟩

/-- A step that leaves the trie alone. -/
theorem Place.Silent.of_same {place' : Place} (hstanding : Standing c trie contents)
    (hnow : place'.now trie.store = place.now trie.store) (hsound : place'.Sound c trie.store)
    (hreplaces : place.replaces c path trie = false) (hreplaced : place'.replaced = place.replaced) :
    Place.Silent c path contents trie trie place place' := by
  refine ⟨hstanding, rfl, hnow, hsound, fun _ => .refl _, ?_⟩
  rw [hreplaced, hreplaces, Bool.or_false]

theorem Place.step_looking {code : NodeCode (Option Content)} {next : Option Bytes → Code Reply}
    (hstanding : Standing c trie contents) (hsound : (Place.looking code next).Sound c trie.store) :
    ∃ place', (Place.looking code next).step c path trie = (.goes place', trie) ∧
      Place.Silent c path contents trie trie (.looking code next) place' := by
  rcases hsound with ⟨content, heval⟩
  cases code with
  | done answer =>
      obtain rfl : answer = .ok content := heval
      exact ⟨_, rfl, .of_same hstanding rfl trivial rfl rfl⟩
  | call hash rest =>
      rcases Program.eval_call_eq_ok heval with ⟨node, hnode, hrest⟩
      refine ⟨.looking (rest node) next, ?_, .of_same hstanding ?_ ⟨content, hrest⟩ rfl rfl⟩
      · simp only [Place.step, Place.read, hnode]
      · simp only [Place.now, heval, hrest]

theorem Place.step_building {code : NodeCode (Option Node)} (hstanding : Standing c trie contents)
    (hsound : (Place.building update code).Sound c trie.store) :
    ∃ place', (Place.building update code).step c path trie = (.goes place', trie) ∧
      Place.Silent c path contents trie trie (.building update code) place' := by
  rcases hsound with ⟨old, t, hstands, htree, normalized, heval, hresolves⟩
  cases code with
  | done answer =>
      obtain rfl : answer = .ok normalized := heval
      exact ⟨_, rfl, .of_same hstanding rfl ⟨old, t, hstands, htree, hresolves⟩ rfl rfl⟩
  | call hash rest =>
      rcases Program.eval_call_eq_ok heval with ⟨node, hnode, hrest⟩
      refine ⟨.building update (rest node), ?_, .of_same hstanding rfl
        ⟨old, t, hstands, htree, normalized, hrest, hresolves⟩ rfl rfl⟩
      simp only [Place.step, Place.read, hnode]

/-- The record of the root is written; nothing reads it. -/
theorem Standing.writeRoot (h : Standing c trie contents) (value : Bytes) :
    Standing c { trie with store := trie.store.write TrieStore.rootKey value } contents :=
  ⟨h.isReady, h.consistent.congr (TrieStore.get_writeRoot trie.store value) rfl, h.standsFor⟩

theorem Place.step_saving {replaced : Bool} {root : Child} (hstanding : Standing c trie contents)
    (hsound : (Place.saving update replaced root).Sound c trie.store)
    (hc : NoCollision c ((Place.saving update replaced root).step c path trie).2.saved) :
    ∃ place' trie', (Place.saving update replaced root).step c path trie = (.goes place', trie') ∧
      Place.Silent c path contents trie trie' (.saving update replaced root) place' := by
  rcases hsound with ⟨old, t, hstands, htree, hresolves⟩
  rw [Place.step] at hc ⊢
  by_cases hsaved : root.isSaved = true
  · -- all nodes are put: the root is written
    rcases hresolves.eq_refOf hsaved with ⟨rfl, hstored⟩
    rw [if_pos hsaved]
    have hgrows := trie.store.grows_writeRoot (rootHashOf c t).serialize
    refine ⟨_, _, rfl, hstanding.writeRoot _, rfl, rfl, ?_, fun _ => ?_, ?_⟩
    · rw [hash_refOf]
      exact ⟨old, t, hstands, htree, hstored.grows hgrows, rfl⟩
    · rw [hash_refOf]
      exact hgrows
    · have hnone : (refOf c t).saveAt c path = none := by
        cases t with
        | nil => cases path <;> rfl
        | node label children content => cases path <;> rfl
      simp only [Place.replaced, Place.replaces, hnone, Option.elim_none, Bool.or_false]
  · rw [if_neg hsaved] at hc ⊢
    rw [Place.put] at hc ⊢
    cases hput : root.saveAt c path with
    | none =>
        refine ⟨_, _, rfl, .of_same hstanding rfl ⟨old, t, hstands, htree, hresolves⟩ ?_ rfl⟩
        simp only [Place.replaces, hput, Option.elim_none]
    | some entry =>
        rcases entry with ⟨node, rest⟩
        rcases hresolves.saveAt htree.normal hput with
          ⟨label, below, content, rfl, hs, hbelow, hafter⟩
        have hstorable := storable_subtree (c := c) htree.normal htree.located hs
        have hset : TrieStore.set ((record c label below content).hash c)
            (record c label below content) trie.store =
            .ok () (trie.store.putAll c [record c label below content]) := by
          rcases hstorable with ⟨bytes, hbytes⟩
          simp only [TrieStore.set, hbytes, TrieStore.putAll, List.foldl_cons, List.foldl_nil,
            Except.toOption, Option.getD_some]
        rw [hput] at hc
        simp only [hset] at hc ⊢
        have hgrown := TrieStore.saved_putAll (c := c) trie.store [record c label below content]
        have hsub : trie.saved ⊆ (trie.store.putAll c [record c label below content]).saved := by
          rw [hgrown]
          exact List.subset_append_left _ _
        have hc' : NoCollision c (trie.store.saved ++ [record c label below content]) := by
          rw [← hgrown]
          exact hc
        refine ⟨_, _, rfl, ⟨hstanding.isReady, ?_, hstanding.standsFor.mono hsub⟩, rfl, rfl, ?_, ?_, ?_⟩
        · exact Consistent.put htree.normal htree.located hs hbelow hc' hstanding.consistent
        · refine ⟨old, t, hstands.mono hsub, htree, hafter _ ?_ ?_⟩
          · intro s hsub hstored
            exact hstored.putAll htree.normal htree.located hs hbelow hc' hsub
          · exact stored_putAll htree.normal htree.located hs hbelow hc'
        · intro hreplaces
          refine TrieStore.grows_putAll hstorable ?_
          simpa only [Place.replaces, hput, Option.elim_some, Bool.not_eq_false'] using hreplaces
        · simp only [Place.replaced, Place.replaces, hput, Option.elim_some]

/-- The root is assigned that is the answer to the current one. -/
theorem Place.represents_rooted {replaced : Bool} {newRoot : Hash}
    (hstanding : Standing c trie contents)
    (hsound : (Place.rooted update replaced newRoot).Sound c trie.store)
    (hroot : trie.rootHash = update.root) :
    Represents c { trie with rootHash := newRoot } (update.op.update contents) := by
  rcases hsound with ⟨old, t, hstands, htree, hstored, rfl⟩
  have hnow := hstanding.standsFor
  rw [hroot] at hnow
  obtain rfl : old = contents :=
    hstands.unique hstanding.consistent.noCollision hstanding.consistent.null_mem hnow
  exact ⟨t, ⟨⟨hstanding.isReady, hstanding.consistent, htree.normal, hstored, rfl⟩, htree.located⟩,
    htree.values⟩

end Lemmas

end EasyFramework
end UniqysKit
