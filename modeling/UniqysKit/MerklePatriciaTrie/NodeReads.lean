import UniqysKit.Library.Program
import UniqysKit.MerklePatriciaTrie.Refinement

/-!
# Operations on nodes, one read at a time

`NodeRef.dereference` waits for the node store, so other code can run between two reads of an
operation.  Here the operations are programs over the reads they make; over a store that does not change
they come to what they come to in `TrieStore`.

`Node.normalize` makes its reads inside of `Promise.all`.  It only reads where one child is left of a
node in memory, and the nodes in memory lie on one path, so no two of these reads are made at once.
-/

namespace UniqysKit

open Library

/-- Code that reads nodes by their hashes. -/
abbrev NodeCode := Program Error fun _ : Hash => Node

/-! ## The programs -/

namespace Child

def dereferenceCode : Child → Option (NodeCode Node)
  | none => .none
  | ofHash hash => some (.perform hash)
  | ofNode keyPrefix children content => some (pure ⟨keyPrefix, children, content⟩)

end Child

namespace Node

def getCode (node : Node) (key : Key) : NodeCode (Option Content) :=
  let matchResult := Key.match node.keyPrefix key
  match matchResult.remain1, _h : matchResult.remain2 with
  | _ :: _, _ => pure none -- not match prefix
  | [], [] => pure node.content
  | [], letter :: rest =>
      match (node.children letter).dereferenceCode with
      | some child => do getCode (← child) rest
      | none => pure none
  termination_by key.length
  decreasing_by exact Key.length_remain2_lt _h

def setCode (node : Node) (key : Key) (content : Content) : NodeCode Node :=
  let matchResult := Key.match node.keyPrefix key
  match _h1 : matchResult.remain1, _h2 : matchResult.remain2 with
  | [], [] => pure ⟨node.keyPrefix, node.children, some content⟩
  | [], letter :: rest => do
      let child ←
        match (node.children letter).dereferenceCode with
        | some child => do setCode (← child) rest content
        | none => pure ⟨rest, emptyBranch, some content⟩
      let children := Function.update node.children letter (Child.ofOptionalNode (some child))
      return ⟨node.keyPrefix, children, node.content⟩
  | letter :: rest, _ =>
      let moved := Child.ofNode rest node.children node.content
      setCode ⟨matchResult.keyPrefix, Function.update emptyBranch letter moved, none⟩ key content
  termination_by 2 * key.length + min (Key.match node.keyPrefix key).remain1.length 1
  decreasing_by
    · have hlt := Key.length_remain2_lt _h2
      omega
    · have hdone : (Key.match matchResult.keyPrefix key).remain1 = [] :=
        Key.remain1_match_keyPrefix node.keyPrefix key
      have hpart : (Key.match node.keyPrefix key).remain1 = letter :: rest := _h1
      rw [hdone, hpart]
      simp

def deleteCode (node : Node) (key : Key) : NodeCode Node :=
  let matchResult := Key.match node.keyPrefix key
  match matchResult.remain1, _h : matchResult.remain2 with
  | [], [] => pure ⟨node.keyPrefix, node.children, none⟩
  | [], letter :: rest => do
      let child ←
        match (node.children letter).dereferenceCode with
        | some child => do pure (some (← deleteCode (← child) rest))
        | none => pure none
      let children := Function.update node.children letter (Child.ofOptionalNode child)
      return ⟨node.keyPrefix, children, node.content⟩
  | _ :: _, _ => pure node
  termination_by key.length
  decreasing_by exact Key.length_remain2_lt _h

def clearCode (node : Node) (key : Key) : NodeCode Node :=
  let matchResult := Key.match node.keyPrefix key
  match matchResult.remain1, _h : matchResult.remain2 with
  | _, [] => pure null
  | [], letter :: rest => do
      let child ←
        match (node.children letter).dereferenceCode with
        | some child => do pure (some (← clearCode (← child) rest))
        | none => pure none
      let children := Function.update node.children letter (Child.ofOptionalNode child)
      return ⟨node.keyPrefix, children, node.content⟩
  | _ :: _, _ :: _ => pure node
  termination_by key.length
  decreasing_by exact Key.length_remain2_lt _h

/-- `existingChildren` of `normalize`. -/
def existingChildrenCode (children : Fin 16 → Child) : List (Fin 16 × NodeCode Node) :=
  (List.finRange 16).filterMap fun index =>
    (children index).dereferenceCode.map fun ref => (index, ref)

def collapseCode (keyPrefix : Key) (normalizedChildren : Fin 16 → Child)
    (content : Option Content) : NodeCode (Option Node) :=
  match content, existingChildrenCode normalizedChildren with
  | none, [] => pure none
  | none, [(index, ref)] => do
      let child ← ref
      return some ⟨keyPrefix ++ index :: child.keyPrefix, child.children, child.content⟩
  | content, _ => pure (some ⟨keyPrefix, normalizedChildren, content⟩)

end Node

namespace Child

def normalizeCode : Child → NodeCode Child
  | none => pure none
  | ofHash hash => pure (ofHash hash)
  | ofNode keyPrefix children content => do
      let normalizedChildren ← promiseAll fun i => (children i).normalizeCode
      return ofOptionalNode (← Node.collapseCode keyPrefix normalizedChildren content)

end Child

namespace Node

def normalizeCode (node : Node) : NodeCode (Option Node) := do
  let normalizedChildren ← promiseAll fun i => (node.children i).normalizeCode
  collapseCode node.keyPrefix normalizedChildren node.content

end Node

/-- The new root of an operation, before it is normalized. -/
def Operation.code : Operation → Node → NodeCode Node
  | .set content, root => root.setCode (Key.bufferToKey content.key) content
  | .delete key, root => root.deleteCode (Key.bufferToKey key)
  | .clear keyPrefix, root => root.clearCode ((keyPrefix.map Key.bufferToKey).getD [])

/-! ## Over one store -/

section Over

variable {st : TrieStore}

theorem promiseAll_eval {α : Type} {n : Nat} (f : Fin n → NodeCode α) :
    (promiseAll f).eval st.get = promiseAll fun i => (f i).eval st.get := by
  induction n with
  | zero => rfl
  | succ n ih =>
      simp only [promiseAll, Program.eval_bind, ih]
      rfl

/-- Following a child, to code and to a result that agree on every node. -/
theorem dereference_eval {α : Type} {f : Node → NodeCode α} {g : Node → Result α} {p : NodeCode α}
    {r : Result α} (child : Child) (hnode : ∀ node, (f node).eval st.get = g node)
    (hnone : p.eval st.get = r) :
    (match child.dereferenceCode with
      | some child => do f (← child)
      | none => p : NodeCode α).eval st.get =
    match child.dereference st with
      | some child => do g (← child)
      | none => r := by
  cases child with
  | none => exact hnone
  | ofHash hash =>
      simp only [Child.dereferenceCode, Child.dereference, Program.eval_bind, Program.eval_perform,
        hnode]
  | ofNode keyPrefix children content => exact hnode _

theorem Node.getCode_eval (node : Node) (key : Key) :
    (node.getCode key).eval st.get = node.get st key := by
  induction hlength : key.length using Nat.strong_induction_on generalizing node key with
  | _ length ih =>
      rw [getCode, get]
      generalize hmatch : Key.match node.keyPrefix key = result
      rcases result with ⟨shared, remain1, remain2⟩
      cases remain1 with
      | cons _ _ => rfl
      | nil =>
          cases remain2 with
          | nil => rfl
          | cons letter rest =>
              have hlt := Key.length_remain2_lt (congrArg Key.Match.remain2 hmatch)
              exact dereference_eval _ (fun child => ih _ (hlength ▸ hlt) child rest rfl) rfl

theorem Node.deleteCode_eval (node : Node) (key : Key) :
    (node.deleteCode key).eval st.get = node.delete st key := by
  induction hlength : key.length using Nat.strong_induction_on generalizing node key with
  | _ length ih =>
      rw [deleteCode, delete]
      generalize hmatch : Key.match node.keyPrefix key = result
      rcases result with ⟨shared, remain1, remain2⟩
      cases remain1 with
      | cons _ _ => rfl
      | nil =>
          cases remain2 with
          | nil => rfl
          | cons letter rest =>
              have hlt := Key.length_remain2_lt (congrArg Key.Match.remain2 hmatch)
              refine dereference_eval (node.children letter) ?_ rfl
              intro child
              rw [Program.eval_bind, ih _ (hlength ▸ hlt) child rest rfl]
              rfl

theorem Node.clearCode_eval (node : Node) (key : Key) :
    (node.clearCode key).eval st.get = node.clear st key := by
  induction hlength : key.length using Nat.strong_induction_on generalizing node key with
  | _ length ih =>
      rw [clearCode, clear]
      generalize hmatch : Key.match node.keyPrefix key = result
      rcases result with ⟨shared, remain1, remain2⟩
      cases remain2 with
      | nil => rfl
      | cons letter rest =>
          cases remain1 with
          | cons _ _ => rfl
          | nil =>
              have hlt := Key.length_remain2_lt (congrArg Key.Match.remain2 hmatch)
              refine dereference_eval (node.children letter) ?_ rfl
              intro child
              rw [Program.eval_bind, ih _ (hlength ▸ hlt) child rest rfl]
              rfl

theorem Node.setCode_eval (node : Node) (key : Key) (content : Content) :
    (node.setCode key content).eval st.get = node.set st key content := by
  induction hlength : 2 * key.length + min (Key.match node.keyPrefix key).remain1.length 1
      using Nat.strong_induction_on generalizing node key with
  | _ length ih =>
      have hsplit := Key.remain1_match_keyPrefix node.keyPrefix key
      rw [setCode, set]
      generalize hmatch : Key.match node.keyPrefix key = result at hlength hsplit
      rcases result with ⟨shared, remain1, remain2⟩
      cases remain1 with
      | cons letter rest =>
          -- the node moves below; the key is set again, and nothing of the label remains
          refine ih _ ?_ _ key rfl
          rw [hsplit, ← hlength]
          simp
      | nil =>
          cases remain2 with
          | nil => rfl
          | cons letter rest =>
              have hlt := Key.length_remain2_lt (congrArg Key.Match.remain2 hmatch)
              refine dereference_eval (node.children letter) ?_ rfl
              intro child
              rw [Program.eval_bind, ih _ (by rw [← hlength]; omega) child rest rfl]
              rfl

/-! ### Normalizing -/

theorem Node.existingChildrenCode_eval (children : Fin 16 → Child) :
    (existingChildrenCode children).map (fun entry => (entry.1, entry.2.eval st.get)) =
      existingChildren st children := by
  rw [existingChildrenCode, existingChildren, List.map_filterMap]
  congr 1
  funext index
  cases children index with
  | none => rfl
  | ofHash hash =>
      simp only [Child.dereferenceCode, Child.dereference, Option.map_some, Program.eval_perform]
  | ofNode keyPrefix children content => rfl

theorem Node.collapseCode_eval (keyPrefix : Key) (children : Fin 16 → Child)
    (content : Option Content) :
    (collapseCode keyPrefix children content).eval st.get =
      collapse st keyPrefix children content := by
  unfold collapseCode collapse
  rw [← existingChildrenCode_eval]
  cases content with
  | some content => rfl
  | none =>
      rcases existingChildrenCode children with _ | ⟨⟨index, ref⟩, _ | ⟨second, existing⟩⟩
      · rfl
      · exact Program.eval_bind _ _
      · rfl

theorem Child.normalizeCode_eval (child : Child) :
    child.normalizeCode.eval st.get = child.normalize st := by
  induction child with
  | none => rfl
  | ofHash hash => rfl
  | ofNode keyPrefix children content ih =>
      simp only [normalizeCode, normalize, Program.eval_bind, promiseAll_eval, ih,
        Node.collapseCode_eval]
      rfl

theorem Node.normalizeCode_eval (node : Node) :
    node.normalizeCode.eval st.get = node.normalize st := by
  simp only [normalizeCode, normalize, Program.eval_bind, promiseAll_eval,
    Child.normalizeCode_eval, collapseCode_eval]

end Over

end UniqysKit
