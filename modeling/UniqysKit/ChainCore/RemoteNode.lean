import Mathlib.Logic.Function.Basic
import UniqysKit.Library.EntryMap
import UniqysKit.Library.Runs

/-!
# Remote nodes

`RemoteNode` and `RemoteNodeSet` of `remote-node.ts`.  Nodes are objects, and the set holds references
to them, so that several objects can stand for one peer.  A listener that the set hangs on a node has a
number of its own, as each call of `add` makes a new one.

What is modelled of a node is its peer, its height, whether its mutex is locked and its listeners;
`triggered` are the `newHeight` events of the set.
-/

namespace UniqysKit
namespace ChainCore

open Library

/-- A reference to a `RemoteNode`. -/
abbrev NodeRef := Nat

/-- The closure of `RemoteNodeSet.add`, which triggers `newHeight` of the set with its node. -/
structure NodeListener where
  number : Nat
  node : NodeRef
  deriving DecidableEq

structure RemoteNode where
  peerId : String
  height : Nat
  locked : Bool
  listeners : List NodeListener

namespace RemoteNode

def consensusHeight (node : RemoteNode) : Nat := node.height + 1

def isIdle (node : RemoteNode) : Bool := !node.locked

def onNewHeight (listener : NodeListener) (node : RemoteNode) : RemoteNode :=
  { node with listeners := node.listeners ++ [listener] }

/-- `EventEmitter.off` removes the listener that was added last. -/
def offNewHeight (listener : NodeListener) (node : RemoteNode) : RemoteNode :=
  { node with listeners := (node.listeners.reverse.erase listener).reverse }

end RemoteNode

structure RemoteNodeSet where
  node : EntryMap String NodeRef
  listener : EntryMap String NodeListener

/-- The set, with the objects it refers to and the number of closures that were made. -/
structure Peers where
  objects : NodeRef → RemoteNode
  set : RemoteNodeSet
  closures : Nat
  triggered : List (NodeRef × Nat)

inductive PeerEvent
  | add (ref : NodeRef)
  | delete (ref : NodeRef)
  /-- The height of a node is set. -/
  | height (ref : NodeRef) (height : Nat)
  /-- The mutex of a node is locked or unlocked. -/
  | mutex (ref : NodeRef) (locked : Bool)

namespace Peers

/-- Nodes that are in no set. -/
def new (peerId : NodeRef → String) (height : NodeRef → Nat) : Peers :=
  ⟨fun ref => ⟨peerId ref, height ref, false, []⟩, ⟨.empty, .empty⟩, 0, []⟩

def add (ref : NodeRef) (peers : Peers) : Peers :=
  let node := peers.objects ref
  let listener := ⟨peers.closures, ref⟩
  { objects := Function.update peers.objects ref (node.onNewHeight listener)
    set :=
      { listener := peers.set.listener.set node.peerId listener
        node := peers.set.node.set node.peerId ref }
    closures := peers.closures + 1
    -- tell listener
    triggered := peers.triggered ++ [(ref, node.height)] }

def delete (ref : NodeRef) (peers : Peers) : Peers :=
  let node := peers.objects ref
  { peers with
    objects :=
      match peers.set.listener.get node.peerId with
      | some listener => Function.update peers.objects ref (node.offNewHeight listener)
      | none => peers.objects
    set :=
      { node := peers.set.node.delete node.peerId
        listener := peers.set.listener.delete node.peerId } }

/-- The setter of `height`. -/
def setHeight (ref : NodeRef) (height : Nat) (peers : Peers) : Peers :=
  let node := peers.objects ref
  if node.height ≠ height then
    { peers with
      objects := Function.update peers.objects ref { node with height }
      triggered := peers.triggered ++ node.listeners.map fun listener => (listener.node, height) }
  else peers

def setLocked (ref : NodeRef) (locked : Bool) (peers : Peers) : Peers :=
  { peers with objects := Function.update peers.objects ref { peers.objects ref with locked } }

def step (peers : Peers) : PeerEvent → Peers
  | .add ref => peers.add ref
  | .delete ref => peers.delete ref
  | .height ref height => peers.setHeight ref height
  | .mutex ref locked => peers.setLocked ref locked

/-! ## What the set is for -/

/-- The node for its peer id is this one. -/
def IsMember (peers : Peers) (ref : NodeRef) : Prop :=
  peers.set.node.get (peers.objects ref).peerId = some ref

instance (peers : Peers) (ref : NodeRef) : Decidable (peers.IsMember ref) :=
  inferInstanceAs (Decidable (_ = _))

/-- A change of the height of a member triggers the event once, and that of another node, one that was
deleted or replaced, does not. -/
def Exact (peers : Peers) : Prop :=
  ∀ ref height, height ≠ (peers.objects ref).height →
    (peers.setHeight ref height).triggered =
      peers.triggered ++ if peers.IsMember ref then [(ref, height)] else []

/-- A node that is deleted is the only one that stops to be a member. -/
def DeletesOne (peers : Peers) (event : PeerEvent) : Prop :=
  ∀ ref, event = .delete ref → ∀ other, other ≠ ref → peers.IsMember other →
    (peers.delete ref).IsMember other

/-- A node is added where there is none for its peer, and deleted where there is no other one. -/
def OnePerPeer (peers : Peers) : PeerEvent → Prop
  | .add ref => peers.set.node.get (peers.objects ref).peerId = none
  | .delete ref => ∀ other ∈ peers.set.node.get (peers.objects ref).peerId, other = ref
  | .height _ _ => True
  | .mutex _ _ => True

/-! ## What an event does -/

variable {peers : Peers} {ref other : NodeRef} {event : PeerEvent}

@[simp] theorem objects_add : (peers.add ref).objects =
    Function.update peers.objects ref ((peers.objects ref).onNewHeight ⟨peers.closures, ref⟩) := rfl

theorem peerId_step (event : PeerEvent) (other : NodeRef) :
    ((peers.step event).objects other).peerId = (peers.objects other).peerId := by
  cases event with
  | add ref =>
      by_cases h : other = ref
      · simp [step, h, RemoteNode.onNewHeight]
      · simp [step, h]
  | delete ref =>
      rw [step, delete]
      cases peers.set.listener.get (peers.objects ref).peerId with
      | none => rfl
      | some listener =>
          by_cases h : other = ref
          · simp [h, RemoteNode.offNewHeight]
          · simp [h]
  | height ref height =>
      rw [step, setHeight]
      split
      · by_cases h : other = ref
        · simp [h]
        · simp [h]
      · rfl
  | mutex ref locked =>
      rw [step, setLocked]
      by_cases h : other = ref
      · simp [h]
      · simp [h]

/-- What a change of height triggers depends on the listeners of the node. -/
theorem exact_iff : peers.Exact ↔
    ∀ ref, (peers.objects ref).listeners.map NodeListener.node =
      if peers.IsMember ref then [ref] else [] := by
  have htriggered : ∀ ref height, height ≠ (peers.objects ref).height →
      (peers.setHeight ref height).triggered = peers.triggered ++
        ((peers.objects ref).listeners.map NodeListener.node).map fun node => (node, height) := by
    intro ref height hne
    rw [setHeight, if_pos hne.symm, List.map_map]
    rfl
  constructor
  · intro h ref
    have hne : (peers.objects ref).height + 1 ≠ (peers.objects ref).height := Nat.succ_ne_self _
    have hchange := h ref _ hne
    rw [htriggered ref _ hne, List.append_cancel_left_eq] at hchange
    have hnodes := congrArg (List.map Prod.fst) hchange
    have hfst : (Prod.fst ∘ fun node : NodeRef => (node, (peers.objects ref).height + 1)) = id := rfl
    rw [List.map_map, hfst, List.map_id] at hnodes
    rw [hnodes]
    split <;> rfl
  · intro h ref height hne
    rw [htriggered ref height hne, h ref]
    split <;> rfl

theorem isMember_add : (peers.add ref).IsMember other ↔
    other = ref ∨ (peers.objects other).peerId ≠ (peers.objects ref).peerId ∧ peers.IsMember other := by
  have hpeer := @peerId_step peers (.add ref) other
  rw [step] at hpeer
  rw [IsMember, hpeer]
  simp only [add, EntryMap.get_set]
  by_cases h : (peers.objects other).peerId = (peers.objects ref).peerId
  · simp [h, eq_comm]
  · have hne : other ≠ ref := by
      rintro rfl
      exact h rfl
    simp [h, hne, IsMember]

theorem isMember_delete : (peers.delete ref).IsMember other ↔
    (peers.objects other).peerId ≠ (peers.objects ref).peerId ∧ peers.IsMember other := by
  have hpeer := @peerId_step peers (.delete ref) other
  rw [step] at hpeer
  rw [IsMember, hpeer]
  simp only [delete, EntryMap.get_delete]
  by_cases h : (peers.objects other).peerId = (peers.objects ref).peerId
  · simp [h]
  · simp [h, IsMember]

/-- What happens to a node leaves the set and the listeners. -/
structure Unchanged (peers peers' : Peers) : Prop where
  peerId : ∀ ref, (peers'.objects ref).peerId = (peers.objects ref).peerId
  listeners : ∀ ref, (peers'.objects ref).listeners = (peers.objects ref).listeners
  set : peers'.set = peers.set

theorem unchanged_setHeight (height : Nat) : Unchanged peers (peers.setHeight ref height) := by
  refine ⟨peerId_step (.height ref height), ?_, ?_⟩
  · intro other
    rw [setHeight]
    split
    · by_cases h : other = ref
      · simp [h]
      · simp [h]
    · rfl
  · rw [setHeight]
    split <;> rfl

theorem unchanged_setLocked (locked : Bool) : Unchanged peers (peers.setLocked ref locked) := by
  refine ⟨peerId_step (.mutex ref locked), ?_, rfl⟩
  intro other
  by_cases h : other = ref
  · simp [setLocked, h]
  · simp [setLocked, h]

theorem Unchanged.isMember {peers' : Peers} (h : Unchanged peers peers') :
    peers'.IsMember other ↔ peers.IsMember other := by
  rw [IsMember, IsMember, h.peerId, h.set]

/-! ## Runs with one node for a peer at a time -/

/-- The invariant: a member has the listener that the set knows, and other nodes have none. -/
structure Inv (peers : Peers) : Prop where
  members : ∀ ref, peers.IsMember ref → ∃ listener, listener.node = ref ∧
    peers.set.listener.get (peers.objects ref).peerId = some listener ∧
    (peers.objects ref).listeners = [listener]
  others : ∀ ref, ¬ peers.IsMember ref → (peers.objects ref).listeners = []

theorem inv_new (peerId : NodeRef → String) (height : NodeRef → Nat) : Inv (new peerId height) := by
  constructor
  · intro ref hmember
    rw [IsMember, new, EntryMap.get_empty] at hmember
    cases hmember
  · intro ref _
    rfl

theorem Inv.exact (h : Inv peers) : peers.Exact := by
  refine exact_iff.mpr ?_
  intro ref
  by_cases hmember : peers.IsMember ref
  · rcases h.members ref hmember with ⟨listener, hnode, -, hlisteners⟩
    rw [if_pos hmember, hlisteners, List.map_singleton, hnode]
  · rw [if_neg hmember, h.others ref hmember, List.map_nil]

theorem Inv.add (h : Inv peers) (hfree : peers.OnePerPeer (.add ref)) : Inv (peers.add ref) := by
  have hfree' : peers.set.node.get (peers.objects ref).peerId = none := hfree
  have hnot : ¬ peers.IsMember ref := by
    rw [IsMember, hfree']
    nofun
  have hpeer := fun other => @peerId_step peers (.add ref) other
  simp only [step] at hpeer
  constructor
  · intro other hmember
    rw [hpeer other]
    simp only [Peers.add, EntryMap.get_set]
    rcases isMember_add.mp hmember with rfl | ⟨hne, hold⟩
    · refine ⟨⟨peers.closures, other⟩, rfl, by simp, ?_⟩
      rw [Function.update_self, RemoteNode.onNewHeight, h.others other hnot, List.nil_append]
    · have hother : other ≠ ref := by
        rintro rfl
        exact hne rfl
      rw [if_neg hne, Function.update_of_ne hother]
      exact h.members other hold
  · intro other hmember
    rw [isMember_add, not_or, not_and] at hmember
    rw [objects_add, Function.update_of_ne hmember.1]
    refine h.others other ?_
    intro hold
    refine hmember.2 ?_ hold
    intro hsame
    -- no node was there for the peer
    rw [IsMember, hsame, hfree'] at hold
    cases hold

/-- The listeners that are left on a node that is deleted, and on the others. -/
theorem Inv.listeners_delete (h : Inv peers) :
    ((peers.delete ref).objects other).listeners =
      if other = ref then [] else (peers.objects other).listeners := by
  rw [delete]
  by_cases hother : other = ref
  · subst hother
    rw [if_pos rfl]
    by_cases hmember : peers.IsMember other
    · rcases h.members other hmember with ⟨listener, -, hget, hlisteners⟩
      simp [hget, RemoteNode.offNewHeight, hlisteners]
    · have hnone := h.others other hmember
      cases peers.set.listener.get (peers.objects other).peerId with
      | none => exact hnone
      | some listener => simp [RemoteNode.offNewHeight, hnone]
  · rw [if_neg hother]
    cases peers.set.listener.get (peers.objects ref).peerId with
    | none => rfl
    | some listener => simp [hother]

theorem Inv.delete (h : Inv peers) (honly : peers.OnePerPeer (.delete ref)) :
    Inv (peers.delete ref) := by
  have hpeer := fun other => @peerId_step peers (.delete ref) other
  simp only [step] at hpeer
  constructor
  · intro other hmember
    rcases isMember_delete.mp hmember with ⟨hne, hold⟩
    have hother : other ≠ ref := by
      rintro rfl
      exact hne rfl
    rw [h.listeners_delete, if_neg hother, hpeer other]
    simp only [Peers.delete, EntryMap.get_delete, if_neg hne]
    exact h.members other hold
  · intro other hmember
    rw [h.listeners_delete]
    split
    · rfl
    · rename_i hother
      -- a member of the same peer is the node that leaves, so this one was no member before
      refine h.others other ?_
      intro hold
      refine hmember (isMember_delete.mpr ⟨?_, hold⟩)
      intro hsame
      rw [IsMember, hsame] at hold
      exact hother (honly other hold)

theorem Inv.unchanged {peers' : Peers} (h : Inv peers) (hsame : Unchanged peers peers') :
    Inv peers' := by
  constructor
  · intro other hmember
    rw [hsame.peerId, hsame.listeners, hsame.set]
    exact h.members other (hsame.isMember.mp hmember)
  · intro other hmember
    rw [hsame.listeners]
    exact h.others other (mt hsame.isMember.mpr hmember)

theorem Inv.step (h : Inv peers) (hone : peers.OnePerPeer event) : Inv (peers.step event) := by
  cases event with
  | add ref => exact h.add hone
  | delete ref => exact h.delete hone
  | height ref height => exact h.unchanged (unchanged_setHeight height)
  | mutex ref locked => exact h.unchanged (unchanged_setLocked locked)

theorem OnePerPeer.deletesOne (h : peers.OnePerPeer event) : peers.DeletesOne event := by
  rintro ref rfl other hne hmember
  refine isMember_delete.mpr ⟨?_, hmember⟩
  intro hsame
  rw [IsMember, hsame] at hmember
  exact hne (h other hmember)

/-! ## The other runs -/

/-- A node is held under its own peer id. -/
def Keyed (peers : Peers) : Prop :=
  ∀ peerId ref, peers.set.node.get peerId = some ref → (peers.objects ref).peerId = peerId

theorem keyed_new (peerId : NodeRef → String) (height : NodeRef → Nat) :
    Keyed (new peerId height) := by
  intro key ref hget
  cases hget

theorem Keyed.step (h : Keyed peers) (event : PeerEvent) : Keyed (peers.step event) := by
  intro key other hget
  rw [peerId_step]
  cases event with
  | add ref =>
      simp only [Peers.step, add, EntryMap.get_set] at hget
      -- the new node is held under its own peer id
      by_cases hkey : key = (peers.objects ref).peerId
      · rw [if_pos hkey] at hget
        cases hget
        exact hkey.symm
      · rw [if_neg hkey] at hget
        exact h key other hget
  | delete ref =>
      simp only [Peers.step, delete, EntryMap.get_delete] at hget
      by_cases hkey : key = (peers.objects ref).peerId
      · rw [if_pos hkey] at hget
        cases hget
      · rw [if_neg hkey] at hget
        exact h key other hget
  | height ref height =>
      rw [Peers.step, (unchanged_setHeight height).set] at hget
      exact h key other hget
  | mutex ref locked => exact h key other hget

theorem Keyed.isMember (h : Keyed peers)
    (hget : peers.set.node.get (peers.objects ref).peerId = some other) :
    (peers.objects other).peerId = (peers.objects ref).peerId ∧ peers.IsMember other := by
  have hpeer := h _ _ hget
  exact ⟨hpeer, by rwa [IsMember, hpeer]⟩

/-- A node that is added in the place of another one leaves its listener behind, and one that is added
twice has two. -/
theorem Keyed.free_of_exact (hkeyed : Keyed peers) (h : peers.Exact)
    (hnext : (peers.add ref).Exact) : peers.set.node.get (peers.objects ref).peerId = none := by
  cases hget : peers.set.node.get (peers.objects ref).peerId with
  | none => rfl
  | some other =>
      rcases hkeyed.isMember hget with ⟨hpeer, hmember⟩
      have hbefore := exact_iff.mp h other
      have hafter := exact_iff.mp hnext other
      rw [if_pos hmember] at hbefore
      rw [objects_add] at hafter
      by_cases hother : other = ref
      · subst hother
        rw [Function.update_self, RemoteNode.onNewHeight, List.map_append, hbefore,
          if_pos (isMember_add.mpr (Or.inl rfl))] at hafter
        exact absurd (congrArg List.length hafter) (by simp)
      · have hout : ¬ (peers.add ref).IsMember other := by
          rw [isMember_add]
          rintro (hsame | ⟨hne, -⟩)
          · exact hother hsame
          · exact hne hpeer
        rw [Function.update_of_ne hother, hbefore, if_neg hout] at hafter
        cases hafter

theorem Keyed.onePerPeer (hkeyed : Keyed peers) (h : peers.Exact) (hnext : (peers.step event).Exact)
    (hdeletes : peers.DeletesOne event) : peers.OnePerPeer event := by
  cases event with
  | height ref height => trivial
  | mutex ref locked => trivial
  | add ref => exact hkeyed.free_of_exact h hnext
  | delete ref =>
      intro other hother
      rcases hkeyed.isMember hother with ⟨hpeer, hmember⟩
      by_contra hne
      exact (isMember_delete.mp (hdeletes ref rfl other hne hmember)).1 hpeer

/-- What the set promises of a run. -/
structure Membership (peers : Peers) (events : List PeerEvent) : Prop where
  exact_heights : Throughout step peers events Exact
  deletesOne : Along step peers events DeletesOne

/-- Membership is exact in exactly those runs in which at most one node stands for a peer at a time. -/
theorem membership_iff (peerId : NodeRef → String) (height : NodeRef → Nat)
    (events : List PeerEvent) :
    Membership (new peerId height) events ↔ Along step (new peerId height) events OnePerPeer := by
  constructor
  · intro h before event after hevents
    have hkeyed : Throughout step (new peerId height) events Keyed :=
      throughout (keyed_new peerId height) (fun _ event hkeyed => hkeyed.step event) events
    have hnext := h.exact_heights (before ++ [event]) after (by simp [hevents])
    rw [List.foldl_append] at hnext
    exact (hkeyed before (event :: after) hevents).onePerPeer
      (h.exact_heights before (event :: after) hevents) hnext (h.deletesOne before event after hevents)
  · intro h
    have hinv : Throughout step (new peerId height) events Inv :=
      h.throughout (inv_new peerId height) fun _ _ hinv hone => hinv.step hone
    refine ⟨fun before after hevents => (hinv before after hevents).exact, ?_⟩
    exact hinv.along h fun _ _ _ hone => hone.deletesOne

/-- Two objects for one peer: it says hello twice, the height of the first object changes, and its
connection ends. -/
def helloTwice : List PeerEvent := [.add 0, .add 1, .height 0 5, .delete 0]

/-- The object that was replaced still triggers the event, and the end of its connection takes the
other one out of the set. -/
theorem not_membership_helloTwice :
    (helloTwice.foldl step (new (fun _ => "peer") fun _ => 0)).triggered = [(0, 0), (1, 0), (0, 5)] ∧
      ¬ (helloTwice.foldl step (new (fun _ => "peer") fun _ => 0)).IsMember 1 ∧
      ¬ Membership (new (fun _ => "peer") fun _ => 0) helloTwice := by
  refine ⟨by decide, by decide, ?_⟩
  intro h
  have hdeletes := h.deletesOne [.add 0, .add 1, .height 0 5] (.delete 0) [] rfl 0 rfl 1
    (by decide) (by decide)
  exact absurd hdeletes (by decide)

end Peers
end ChainCore
end UniqysKit
