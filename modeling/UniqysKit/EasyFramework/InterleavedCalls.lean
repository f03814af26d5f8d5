import UniqysKit.EasyFramework.AccessSteps
import UniqysKit.EasyFramework.LockedSection
import UniqysKit.Library.Interleaving
import UniqysKit.Library.Runs

/-!
# Interleaved calls

Commands and requests that are served at the same time, down to the single reads and writes of the node
store.  The calls of one mutex wait for each other, others run in between at any await.

As long as the steps do not disturb each other, the calls get the answers that they would get one after
another, in the order in which they are answered, and leave behind the contents that this would leave.
Calls of one mutex never disturb each other.
-/

namespace UniqysKit
namespace EasyFramework

open Library

/-! ## Accesses to shared contents -/

/-- A key, or all keys that begin alike. -/
inductive Region
  | key (key : Bytes)
  | below (keyPrefix : Bytes)

namespace Region

def keys : Region → Set Bytes
  | key k => {k}
  | below keyPrefix => {k | keyPrefix <+: k}

def meets : Region → Region → Bool
  | key k, key k' => k = k'
  | key k, below keyPrefix | below keyPrefix, key k => keyPrefix <+: k
  | below keyPrefix, below keyPrefix' => keyPrefix <+: keyPrefix' || keyPrefix' <+: keyPrefix

theorem disjoint_of_not_meets {region region' : Region} (h : region.meets region' = false) :
    Disjoint region.keys region'.keys := by
  refine Set.disjoint_left.mpr ?_
  intro k hk hk'
  refine absurd ?_ (Bool.eq_false_iff.mp h)
  cases region with
  | key k₁ =>
      obtain rfl : k = k₁ := hk
      cases region' with
      | key k₂ =>
          obtain rfl : k = k₂ := hk'
          exact decide_eq_true rfl
      | below keyPrefix => exact decide_eq_true hk'
  | below keyPrefix =>
      cases region' with
      | key k₂ =>
          obtain rfl : k = k₂ := hk'
          exact decide_eq_true hk
      | below keyPrefix' =>
          -- two beginnings of one key
          refine (Bool.or_eq_true _ _).mpr ?_
          rcases List.prefix_or_prefix_of_prefix hk hk' with hle | hle
          · exact .inl (decide_eq_true hle)
          · exact .inr (decide_eq_true hle)

end Region

namespace Access

def region : Access → Region
  | get key => .key key
  | apply (.set content) => .key content.key
  | apply (.delete key) => .key key
  | apply (.clear keyPrefix) => .below (keyPrefix.getD [])

def isGet : Access → Bool
  | get _ => true
  | apply _ => false

/-- Both only look, or they have no key in common. -/
def independent (access access' : Access) : Bool :=
  (access.isGet && access'.isGet) || !access.region.meets access'.region

/-- The accesses on the contents. -/
def shared : Shared Access.Res Bytes (Option Bytes) where
  answer
    | get key, contents => contents key
    | apply _, _ => ()
  effect
    | get _, contents => contents
    | apply op, contents => op.update contents
  reads
    | get key => {key}
    | apply _ => ∅
  writes
    | get _ => ∅
    | apply op => (Access.apply op).region.keys
  answer_congr := by
    intro access contents contents' heq
    cases access with
    | get key => exact heq rfl
    | apply op => rfl
  effect_congr := by
    intro access contents contents' key hkey
    cases access with
    | get key' => exact hkey.elim
    | apply op =>
        cases op with
        | set content => exact (if_pos hkey).trans (if_pos hkey).symm
        | delete key' => exact (if_pos hkey).trans (if_pos hkey).symm
        | clear keyPrefix => exact (if_pos hkey).trans (if_pos hkey).symm
  effect_other := by
    intro access contents key hkey
    cases access with
    | get key' => rfl
    | apply op =>
        cases op with
        | set content => exact if_neg hkey
        | delete key' => exact if_neg hkey
        | clear keyPrefix => exact if_neg hkey

theorem reads_subset (access : Access) : shared.reads access ⊆ access.region.keys := by
  cases access with
  | get key => exact subset_rfl
  | apply op => exact Set.empty_subset _

theorem writes_subset (access : Access) : shared.writes access ⊆ access.region.keys := by
  cases access with
  | get key => exact Set.empty_subset _
  | apply op => exact subset_rfl

theorem apart_of_independent {access access' : Access} (h : access.independent access' = true) :
    shared.Apart access access' := by
  rcases (Bool.or_eq_true _ _).mp h with hget | hmeets
  · rcases (Bool.and_eq_true _ _).mp hget with ⟨hfirst, hsecond⟩
    cases access with
    | apply op => cases hfirst
    | get key =>
        cases access' with
        | apply op => cases hsecond
        | get key' => exact ⟨Set.empty_disjoint _, Set.disjoint_empty _, Set.empty_disjoint _⟩
  · have hkeys := Region.disjoint_of_not_meets (Bool.not_eq_true' _ |>.mp hmeets)
    exact ⟨hkeys.mono access.writes_subset access'.reads_subset,
      hkeys.mono access.reads_subset access'.writes_subset,
      hkeys.mono access.writes_subset access'.writes_subset⟩

end Access

/-! ## The system -/

/-- A call that was let in, with the accesses that have taken effect. -/
structure Underway where
  call : Call
  place : Place
  log : List Access

/-- Some calls are under way, others were answered, in this order. -/
structure Serving where
  trie : MerklePatriciaTrie
  underway : List Underway
  answered : List (Call × Except Error Reply)

inductive ServingEvent
  | call (call : Call)
  /-- A call goes on to its next await; a save goes on at the end of the path. -/
  | goOn (i : Nat) (path : List (Fin 16))

namespace Serving

section Definitions

variable (c : Crypto) (memcached : EasyMemcached)

/-- The call is the first of those that wait for its mutex. -/
def isFirst (underway : List Underway) (i : Nat) (u : Underway) : Bool :=
  u.call.mutex = none || (underway.take i).all fun other => other.call.mutex ≠ u.call.mutex

def goOn (s : Serving) (i : Nat) (path : List (Fin 16)) : Serving :=
  match s.underway[i]? with
  | some u =>
      if isFirst s.underway i u then
        match u.place.step c path s.trie with
        | (.goes place, trie) =>
            { s with
              trie
              underway := s.underway.set i ⟨u.call, place, u.log ++ u.place.effect.toList⟩ }
        | (.ends answer, trie) =>
            ⟨trie, s.underway.eraseIdx i, s.answered ++ [(u.call, answer)]⟩
      else s
  | none => s

def step (s : Serving) : ServingEvent → Serving
  | .call call =>
      { s with underway := s.underway ++ [⟨call, .between (call.code memcached), []⟩] }
  | .goOn i path => s.goOn c i path

end Definitions

end Serving

/-- The next step of the call does not disturb the others, and they have not disturbed the call. -/
structure Underway.Undisturbed (c : Crypto) (path : List (Fin 16)) (trie : MerklePatriciaTrie)
    (others : List Underway) (u : Underway) : Prop where
  /-- No access begins while a node is replaced and the root not yet assigned. -/
  begins : u.place.begins = true → ∀ other ∈ others, other.place.replaced = false
  /-- No node is replaced while another call is inside of an access. -/
  replaces : u.place.replaces c path trie = true → ∀ other ∈ others, other.place.inside = false
  /-- The root that is assigned is built on the one that is there. -/
  assigns : ∀ root ∈ u.place.assigns, trie.rootHash = root
  /-- What takes effect has nothing to do with what the others have done so far. -/
  effect : ∀ access ∈ u.place.effect, ∀ other ∈ others, ∀ access' ∈ other.log,
    access.independent access' = true

instance (c : Crypto) (path : List (Fin 16)) (trie : MerklePatriciaTrie) (others : List Underway)
    (u : Underway) : Decidable (u.Undisturbed c path trie others) :=
  decidable_of_iff
    ((u.place.begins = true → ∀ other ∈ others, other.place.replaced = false) ∧
      (u.place.replaces c path trie = true → ∀ other ∈ others, other.place.inside = false) ∧
      (∀ root ∈ u.place.assigns, trie.rootHash = root) ∧
      ∀ access ∈ u.place.effect, ∀ other ∈ others, ∀ access' ∈ other.log,
        access.independent access' = true)
    ⟨fun h => ⟨h.1, h.2.1, h.2.2.1, h.2.2.2⟩, fun h => ⟨h.begins, h.replaces, h.assigns, h.effect⟩⟩

namespace Serving

def Undisturbed (c : Crypto) (s : Serving) : ServingEvent → Prop
  | .call _ => True
  | .goOn i path => ∀ u ∈ s.underway[i]?, isFirst s.underway i u = true →
      u.Undisturbed c path s.trie (s.underway.eraseIdx i)

instance (c : Crypto) (s : Serving) (event : ServingEvent) : Decidable (s.Undisturbed c event) :=
  match event with
  | .call _ => isTrue trivial
  | .goOn i path => inferInstanceAs (Decidable (∀ u ∈ s.underway[i]?,
      isFirst s.underway i u = true → u.Undisturbed c path s.trie (s.underway.eraseIdx i)))

end Serving

/-- The calls one after another on the contents: what they reply or throw, and the contents after
them. -/
def Call.replies (memcached : EasyMemcached) (calls : List Call) (contents : Contents) :
    List (Except Error Reply) × Contents :=
  Access.shared.serveAll (calls.map (Call.code memcached)) contents

/-! ## The invariant -/

/-- A call that has replaced nodes is alone in the trie. -/
def Underway.Compatible (u u' : Underway) : Prop :=
  (u.place.replaced = true → u'.place.inside = false) ∧
    (u'.place.replaced = true → u.place.inside = false)

/-- What is left of the call, as a task over the contents. -/
def Underway.task (memcached : EasyMemcached) (st : TrieStore) (u : Underway) :
    Shared.Task Error Access.Res Reply :=
  ⟨u.call.code memcached, u.place.now st, u.log⟩

/-- The calls under way and those that were answered, with the contents that the trie stands for. -/
structure Correct (c : Crypto) (memcached : EasyMemcached) (start : Contents)
    (trie : MerklePatriciaTrie) (underway : List Underway)
    (answered : List (Call × Except Error Reply)) (contents : Contents) : Prop where
  standing : Standing c trie contents
  represents : (∀ u ∈ underway, u.place.replaced = false) → Represents c trie contents
  sound : ∀ u ∈ underway, u.place.Sound c trie.store
  compatible : underway.Pairwise Underway.Compatible
  serial : Access.shared.Serial start (answered.map fun entry => (entry.1.code memcached, entry.2))
    (underway.map (Underway.task memcached trie.store)) contents

section Invariant

variable {c : Crypto} {memcached : EasyMemcached} {start contents : Contents}
  {trie trie' : MerklePatriciaTrie} {u : Underway} {underway underway' others : List Underway}
  {answered : List (Call × Except Error Reply)} {path : List (Fin 16)}

theorem Underway.Compatible.symm {u u' : Underway} (h : u.Compatible u') : u'.Compatible u :=
  ⟨h.2, h.1⟩

theorem Correct.perm (h : Correct c memcached start trie underway answered contents)
    (hperm : underway.Perm underway') :
    Correct c memcached start trie underway' answered contents := by
  refine ⟨h.standing, ?_, ?_, ?_, h.serial.perm (hperm.map _)⟩
  · intro hreplaced
    exact h.represents fun u hu => hreplaced u (hperm.mem_iff.mp hu)
  · intro u hu
    exact h.sound u (hperm.mem_iff.mpr hu)
  · exact h.compatible.perm hperm fun hcompatible => hcompatible.symm

theorem Place.replaced_of_not_inside {place : Place} (h : place.inside = false) :
    place.replaced = false := by
  cases place with
  | between code => rfl
  | looking code next => cases h
  | building update code => cases h
  | saving update replaced root => cases h
  | rooted update replaced newRoot => cases h

/-- A call outside of the trie does not notice what happens to it. -/
theorem Place.sound_of_not_inside {place : Place} (h : place.inside = false) (st st' : TrieStore) :
    place.Sound c st' ∧ place.now st' = place.now st := by
  cases place with
  | between code => exact ⟨trivial, rfl⟩
  | looking code next => cases h
  | building update code => cases h
  | saving update replaced root => cases h
  | rooted update replaced newRoot => cases h

theorem correct_nil (hrep : Represents c trie start) :
    Correct c memcached start trie [] [] start :=
  ⟨hrep.standing, fun _ => hrep, by simp, .nil, Shared.serial_nil start⟩

/-- A call comes in. -/
theorem Correct.call (h : Correct c memcached start trie underway answered contents) (call : Call) :
    Correct c memcached start trie (⟨call, .between (call.code memcached), []⟩ :: underway) answered
      contents := by
  refine ⟨h.standing, ?_, ?_, ?_, h.serial.begin _⟩
  · intro hreplaced
    exact h.represents fun u hu => hreplaced u (List.mem_cons_of_mem _ hu)
  · intro u hu
    rcases List.mem_cons.mp hu with rfl | hu
    · trivial
    · exact h.sound u hu
  · refine List.pairwise_cons.mpr ⟨?_, h.compatible⟩
    intro other hother
    exact ⟨nofun, fun _ => rfl⟩

/-! ## One step of a call -/

/-- A step that does not show in the contents, of a call inside of the trie. -/
theorem Correct.silent (h : Correct c memcached start trie (u :: others) answered contents)
    {place : Place} (hsilent : Place.Silent c path contents trie trie' u.place place)
    (hinside : u.place.inside = true)
    (hreplaces : u.place.replaces c path trie = true →
      ∀ other ∈ others, other.place.inside = false) :
    Correct c memcached start trie' (⟨u.call, place, u.log⟩ :: others) answered contents := by
  have hother : ∀ other ∈ others, other.place.Sound c trie'.store ∧
      other.place.now trie'.store = other.place.now trie.store := by
    intro other hmem
    cases hcase : u.place.replaces c path trie with
    | false => exact (h.sound other (List.mem_cons_of_mem _ hmem)).grows (hsilent.grows hcase)
    | true => exact Place.sound_of_not_inside (hreplaces hcase other hmem) _ _
  rcases List.pairwise_cons.mp h.compatible with ⟨hfirst, hpairs⟩
  refine ⟨hsilent.standing, ?_, ?_, ?_, ?_⟩
  · intro hreplaced
    have hself := hreplaced _ (List.mem_cons_self ..)
    rw [hsilent.replaced, Bool.or_eq_false_iff] at hself
    refine (h.represents ?_).grows hsilent.standing hsilent.rootHash (hsilent.grows hself.2)
    intro u' hu'
    rcases List.mem_cons.mp hu' with rfl | hu'
    · exact hself.1
    · exact hreplaced u' (List.mem_cons_of_mem _ hu')
  · intro u' hu'
    rcases List.mem_cons.mp hu' with rfl | hu'
    · exact hsilent.sound
    · exact (hother u' hu').1
  · refine List.pairwise_cons.mpr ⟨?_, hpairs⟩
    intro other hmem
    refine ⟨?_, ?_⟩
    · intro hreplaced
      rw [hsilent.replaced, Bool.or_eq_true] at hreplaced
      rcases hreplaced with hold | hnew
      · exact (hfirst other hmem).1 hold
      · exact hreplaces hnew other hmem
    · intro hreplaced
      -- the call would be alone in the trie
      rw [(hfirst other hmem).2 hreplaced] at hinside
      cases hinside
  · have htasks : (⟨u.call, place, u.log⟩ :: others).map (Underway.task memcached trie'.store) =
        (u :: others).map (Underway.task memcached trie.store) := by
      rw [List.map_cons, List.map_cons]
      congr 1
      · simp only [Underway.task, hsilent.now]
      · refine List.map_congr_left ?_
        intro other hmem
        simp only [Underway.task, (hother other hmem).2]
    rw [htasks]
    exact h.serial

/-- When no other call has replaced a node, the trie represents the contents. -/
theorem Correct.represents_of_others
    (h : Correct c memcached start trie (u :: others) answered contents)
    (hself : u.place.inside = false) (hothers : ∀ other ∈ others, other.place.replaced = false) :
    Represents c trie contents := by
  refine h.represents ?_
  intro u' hu'
  rcases List.mem_cons.mp hu' with rfl | hu'
  · exact Place.replaced_of_not_inside hself
  · exact hothers u' hu'

/-- The call is at another place in the same store, with nothing replaced. -/
theorem Correct.move (h : Correct c memcached start trie (u :: others) answered contents)
    {place : Place} {log : List Access} {contents' : Contents} (hstore : trie'.store = trie.store)
    (hrep : Represents c trie' contents') (hsound : place.Sound c trie.store)
    (hreplaced : place.replaced = false)
    (hothers : place.inside = false ∨ ∀ other ∈ others, other.place.replaced = false)
    (hserial : Access.shared.Serial start
      (answered.map fun entry => (entry.1.code memcached, entry.2))
      (⟨u.call.code memcached, place.now trie.store, log⟩ ::
        others.map (Underway.task memcached trie.store)) contents') :
    Correct c memcached start trie' (⟨u.call, place, log⟩ :: others) answered contents' := by
  refine ⟨hrep.standing, fun _ => hrep, ?_, ?_, ?_⟩
  · intro u' hu'
    rw [hstore]
    rcases List.mem_cons.mp hu' with rfl | hu'
    · exact hsound
    · exact h.sound u' (List.mem_cons_of_mem _ hu')
  · rcases List.pairwise_cons.mp h.compatible with ⟨-, hpairs⟩
    refine List.pairwise_cons.mpr ⟨?_, hpairs⟩
    intro other hmem
    refine ⟨fun hself => ?_, fun hother => ?_⟩
    · rw [hreplaced] at hself
      cases hself
    · rcases hothers with hinside | hothers
      · exact hinside
      · rw [hothers other hmem] at hother
        cases hother
  · rw [hstore]
    exact hserial

/-- What a step comes to. -/
def Correct.After (c : Crypto) (memcached : EasyMemcached) (start : Contents) (u : Underway)
    (others : List Underway) (answered : List (Call × Except Error Reply))
    (contents : Contents) : Turn × MerklePatriciaTrie → Prop
  | (.goes place, trie) => Correct c memcached start trie
      (⟨u.call, place, u.log ++ u.place.effect.toList⟩ :: others) answered contents
  | (.ends answer, trie) => Correct c memcached start trie others
      (answered ++ [(u.call, answer)]) contents

/-- A step inside of an access. -/
theorem Correct.after_silent (h : Correct c memcached start trie (u :: others) answered contents)
    (hund : u.Undisturbed c path trie others) (hinside : u.place.inside = true)
    (heffect : u.place.effect = none)
    (hstep : ∃ place trie', u.place.step c path trie = (.goes place, trie') ∧
      Place.Silent c path contents trie trie' u.place place) :
    Correct.After c memcached start u others answered contents (u.place.step c path trie) := by
  rcases hstep with ⟨place, trie', hstep, hsilent⟩
  rw [hstep, Correct.After, heffect, Option.toList_none, List.append_nil]
  exact h.silent hsilent hinside hund.replaces

/-- Between two accesses: the call ends, or the next access begins. -/
theorem Correct.step_between {code : Code Reply}
    (h : Correct c memcached start trie (u :: others) answered contents)
    (hund : u.Undisturbed c path trie others) (hplace : u.place = .between code) :
    ∃ contents', Correct.After c memcached start u others answered contents'
      (u.place.step c path trie) := by
  rcases u with ⟨call, place, log⟩
  obtain rfl : place = .between code := hplace
  refine ⟨contents, ?_⟩
  cases code with
  | done answer =>
      rcases List.pairwise_cons.mp h.compatible with ⟨-, hpairs⟩
      have hserial := h.serial.finish (show _ = Program.done answer from rfl)
      refine ⟨h.standing, ?_, fun u' hu' => h.sound u' (List.mem_cons_of_mem _ hu'), hpairs, ?_⟩
      · exact h.represents_of_others rfl
      · rw [List.map_append, List.map_singleton]
        exact hserial
  | call access next =>
      have hothers := hund.begins rfl
      have hrep := h.represents_of_others rfl hothers
      cases access with
      | get key =>
          rcases hrep.looking key next with ⟨hsound, hnow⟩
          have hserial := h.serial.operate (show _ = Program.call (Access.get key) _ from rfl)
            fun other hother access' haccess' => by
              rcases List.mem_map.mp hother with ⟨u', hu', rfl⟩
              exact Access.apart_of_independent
                (hund.effect (Access.get key) rfl u' hu' access' haccess')
          simp only [Place.step, Place.begin, hrep.standing.isReady, if_true]
          refine h.move rfl hrep hsound rfl (.inr hothers) ?_
          rw [hnow]
          exact hserial
      | apply op =>
          simp only [Place.step, Place.begin, hrep.standing.isReady, if_true]
          have hserial := h.serial
          refine h.move rfl hrep (hrep.building op next) rfl (.inr hothers) ?_
          simp only [Place.effect, Option.toList_none, List.append_nil]
          exact hserial

/-- The root is assigned, and the operation takes effect. -/
theorem Correct.step_rooted {update : Update} {replaced : Bool} {newRoot : Hash}
    (h : Correct c memcached start trie (u :: others) answered contents)
    (hund : u.Undisturbed c path trie others) (hplace : u.place = .rooted update replaced newRoot) :
    ∃ contents', Correct.After c memcached start u others answered contents'
      (u.place.step c path trie) := by
  rcases u with ⟨call, place, log⟩
  obtain rfl : place = .rooted update replaced newRoot := hplace
  have hroot : trie.rootHash = update.root := hund.assigns update.root rfl
  have hrep := Place.represents_rooted h.standing (h.sound _ (List.mem_cons_self ..)) hroot
  have hserial := h.serial.operate (show _ = Program.call (Access.apply update.op) _ from rfl)
    fun other hother access' haccess' => by
      rcases List.mem_map.mp hother with ⟨u', hu', rfl⟩
      exact Access.apart_of_independent
        (hund.effect (Access.apply update.op) rfl u' hu' access' haccess')
  exact ⟨_, h.move rfl hrep trivial rfl (.inl rfl) hserial⟩

theorem Correct.step (h : Correct c memcached start trie (u :: others) answered contents)
    (hund : u.Undisturbed c path trie others)
    (hc : NoCollision c (u.place.step c path trie).2.saved) :
    ∃ contents', Correct.After c memcached start u others answered contents'
      (u.place.step c path trie) := by
  have hsound := h.sound u (List.mem_cons_self ..)
  cases hplace : u.place with
  | between code =>
      rw [← hplace]
      exact h.step_between hund hplace
  | looking code next =>
      rw [hplace] at hsound
      rcases Place.step_looking h.standing hsound with ⟨place, hstep, hsilent⟩
      rw [← hplace] at hstep hsilent ⊢
      exact ⟨contents, h.after_silent hund (by rw [hplace]; rfl) (by rw [hplace]; rfl)
        ⟨place, trie, hstep, hsilent⟩⟩
  | building update code =>
      rw [hplace] at hsound
      rcases Place.step_building h.standing hsound with ⟨place, hstep, hsilent⟩
      rw [← hplace] at hstep hsilent ⊢
      exact ⟨contents, h.after_silent hund (by rw [hplace]; rfl) (by rw [hplace]; rfl)
        ⟨place, trie, hstep, hsilent⟩⟩
  | saving update replaced root =>
      rw [hplace] at hsound hc
      rcases Place.step_saving h.standing hsound hc with ⟨place, trie', hstep, hsilent⟩
      rw [← hplace] at hstep hsilent ⊢
      exact ⟨contents, h.after_silent hund (by rw [hplace]; rfl) (by rw [hplace]; rfl)
        ⟨place, trie', hstep, hsilent⟩⟩
  | rooted update replaced newRoot =>
      rw [← hplace]
      exact h.step_rooted hund hplace

end Invariant

/-! ## Runs -/

section Runs

variable {c : Crypto} {memcached : EasyMemcached} {start : Contents} {s : Serving}
  {event : ServingEvent} {trie : MerklePatriciaTrie}

/-- Saved nodes stay in the list of saved nodes. -/
theorem Place.saved_subset_step (path : List (Fin 16)) (place : Place) :
    trie.saved ⊆ (place.step c path trie).2.saved := by
  cases place with
  | between code =>
      cases code with
      | done answer => exact List.Subset.refl _
      | call access next =>
          cases access with
          | get key => exact List.Subset.refl _
          | apply op => exact List.Subset.refl _
  | looking code next =>
      cases code with
      | done answer =>
          cases answer with
          | ok content => exact List.Subset.refl _
          | error e => exact List.Subset.refl _
      | call hash next => exact List.Subset.refl _
  | building update code =>
      cases code with
      | done answer =>
          cases answer with
          | ok normalized => exact List.Subset.refl _
          | error e => exact List.Subset.refl _
      | call hash next => exact List.Subset.refl _
  | saving update replaced root =>
      rw [Place.step]
      split
      · exact List.Subset.refl _
      · rw [Place.put]
        split
        · rename_i node rest _
          have hgrowing := TrieStore.growing_set (node.hash c) node trie.store
          split
          · rename_i hset
            rw [hset] at hgrowing
            exact List.IsPrefix.subset hgrowing
          · rename_i hset
            rw [hset] at hgrowing
            exact List.IsPrefix.subset hgrowing
        · exact List.Subset.refl _
  | rooted update replaced newRoot => exact List.Subset.refl _

theorem Serving.saved_subset_step (s : Serving) (event : ServingEvent) :
    s.trie.saved ⊆ (s.step c memcached event).trie.saved := by
  cases event with
  | call call => exact List.Subset.refl _
  | goOn i path =>
      rw [Serving.step, Serving.goOn]
      split
      · rename_i u hu
        split
        · have hsub := @Place.saved_subset_step c s.trie path u.place
          split
          · rename_i hstep
            rw [hstep] at hsub
            exact hsub
          · rename_i hstep
            rw [hstep] at hsub
            exact hsub
        · exact List.Subset.refl _
      · exact List.Subset.refl _

/-- The system is in order, unless saved nodes collide. -/
def Serving.InOrder (c : Crypto) (memcached : EasyMemcached) (start : Contents) (s : Serving) : Prop :=
  NoCollision c s.trie.saved →
    ∃ contents, Correct c memcached start s.trie s.underway s.answered contents

/-- What one event keeps. -/
theorem Serving.InOrder.step (h : s.InOrder c memcached start) (hund : s.Undisturbed c event) :
    (s.step c memcached event).InOrder c memcached start := by
  intro hc
  rcases h (hc.mono (s.saved_subset_step event)) with ⟨contents, hcorrect⟩
  cases event with
  | call call =>
      exact ⟨contents, (hcorrect.call call).perm (List.perm_append_singleton _ _).symm⟩
  | goOn i path =>
      rw [Serving.step, Serving.goOn] at hc ⊢
      cases hu : s.underway[i]? with
      | none => exact ⟨contents, hcorrect⟩
      | some u =>
          simp only [hu] at hc ⊢
          by_cases hfirst : Serving.isFirst s.underway i u = true
          · rw [if_pos hfirst] at hc ⊢
            rcases List.getElem?_eq_some_iff.mp hu with ⟨hi, rfl⟩
            -- the call that goes on comes first
            have hfront := hcorrect.perm (List.getElem_cons_eraseIdx_perm hi).symm
            have hundisturbed := hund _ hu hfirst
            have hstep := hfront.step hundisturbed
            cases hturn : (s.underway[i]).place.step c path s.trie with
            | mk turn trie =>
                rw [hturn] at hc hstep
                cases turn with
                | goes place =>
                    rcases hstep hc with ⟨contents', hafter⟩
                    exact ⟨contents', Correct.perm hafter (List.set_perm_cons_eraseIdx hi _).symm⟩
                | ends answer => exact hstep hc
          · rw [if_neg hfirst]
            exact ⟨contents, hcorrect⟩

theorem Correct.replies {underway : List Underway} {answered : List (Call × Except Error Reply)}
    {contents : Contents} (h : Correct c memcached start trie underway answered contents) :
    (Call.replies memcached (answered.map Prod.fst) start).1 = answered.map Prod.snd ∧
      (underway = [] →
        Represents c trie (Call.replies memcached (answered.map Prod.fst) start).2) := by
  have hcalls : (answered.map fun entry => (entry.1.code memcached, entry.2)).map Prod.fst =
      (answered.map Prod.fst).map (Call.code memcached) := by
    rw [List.map_map, List.map_map]
    rfl
  have hanswers : (answered.map fun entry => (entry.1.code memcached, entry.2)).map Prod.snd =
      answered.map Prod.snd := by
    rw [List.map_map]
    rfl
  refine ⟨?_, ?_⟩
  · have hserved := h.serial.answers
    rw [hcalls, hanswers] at hserved
    exact hserved
  · rintro rfl
    have hcontents := h.serial.eq_of_nil
    rw [hcalls] at hcontents
    have hrep := h.represents (by simp)
    rw [hcontents] at hrep
    exact hrep

/-- A run whose steps do not disturb each other stays in order. -/
theorem Serving.exists_correct (hrep : Represents c trie start) {events : List ServingEvent}
    (hund : Along (step c memcached) ⟨trie, [], []⟩ events (Undisturbed c))
    (hc : NoCollision c (events.foldl (step c memcached) ⟨trie, [], []⟩).trie.saved) :
    ∃ contents, Correct c memcached start (events.foldl (step c memcached) ⟨trie, [], []⟩).trie
      (events.foldl (step c memcached) ⟨trie, [], []⟩).underway
      (events.foldl (step c memcached) ⟨trie, [], []⟩).answered contents := by
  have hinit : Serving.InOrder c memcached start ⟨trie, [], []⟩ := fun _ => ⟨start, correct_nil hrep⟩
  have horder := hund.throughout hinit fun s event h hevent => h.step hevent
  exact horder events [] (List.append_nil _).symm hc

/-- In every run whose steps do not disturb each other, the calls are answered as they would be one
after another, in this order; when nothing is under way, the trie has the contents after them. -/
theorem Serving.answers_eq_replies (hrep : Represents c trie start) (events : List ServingEvent)
    (hund : Along (step c memcached) ⟨trie, [], []⟩ events (Undisturbed c))
    (hc : NoCollision c (events.foldl (step c memcached) ⟨trie, [], []⟩).trie.saved) :
    let s := events.foldl (step c memcached) ⟨trie, [], []⟩
    (Call.replies memcached (s.answered.map Prod.fst) start).1 = s.answered.map Prod.snd ∧
      (s.underway = [] →
        Represents c s.trie (Call.replies memcached (s.answered.map Prod.fst) start).2) := by
  rcases Serving.exists_correct hrep hund hc with ⟨contents, hcorrect⟩
  exact hcorrect.replies

/-- A fresh trie, made ready. -/
def freshTrie : MerklePatriciaTrie :=
  (Fallible.final (State.ready .transparent 0 ⟨[]⟩ (State.new .transparent))).top

theorem represents_freshTrie : Represents .transparent freshTrie fun _ => none :=
  represents_ready 0 ⟨[]⟩

/-- A memcached command and a request to the inner API: the account is looked up while the command
builds its new root. -/
def commandAndRequest : List ServingEvent :=
  [.call (.set [1] 0 [7]), .call (.putBalance (some Address.zero) (some 5)), .goOn 0 [], .goOn 1 [],
    .goOn 0 [], .goOn 1 [], .goOn 0 [], .goOn 1 []] ++ List.replicate 7 (.goOn 0 []) ++
      .goOn 0 ((List.finRange 16).take 1) :: List.replicate 4 (.goOn 0 [])

theorem Serving.answers_eq_replies_commandAndRequest :
    let s := commandAndRequest.foldl (step .transparent ⟨false, .readWrite⟩) ⟨freshTrie, [], []⟩
    (Call.replies ⟨false, .readWrite⟩ (s.answered.map Prod.fst) fun _ => none).1 =
        s.answered.map Prod.snd ∧
      (s.underway = [] → Represents .transparent s.trie
        (Call.replies ⟨false, .readWrite⟩ (s.answered.map Prod.fst) fun _ => none).2) :=
  Serving.answers_eq_replies represents_freshTrie commandAndRequest (by decide +kernel)
    (by decide +kernel)

end Runs

/-! ## Calls that wait for a mutex -/

namespace Serving

/-- The calls under way that do not wait for the mutex of this call. -/
def unguarded (underway : List Underway) (u : Underway) : List Underway :=
  underway.filter fun other => u.call.mutex = none || other.call.mutex ≠ u.call.mutex

/-- A step of a call does not disturb those that do not wait for its mutex, and they have not disturbed
the call. -/
def Apart (c : Crypto) (s : Serving) : ServingEvent → Prop
  | .call _ => True
  | .goOn i path => ∀ u ∈ s.underway[i]?, isFirst s.underway i u = true →
      u.Undisturbed c path s.trie (unguarded (s.underway.eraseIdx i) u)

instance (c : Crypto) (s : Serving) (event : ServingEvent) : Decidable (s.Apart c event) :=
  match event with
  | .call _ => isTrue trivial
  | .goOn i path => inferInstanceAs (Decidable (∀ u ∈ s.underway[i]?,
      isFirst s.underway i u = true → u.Undisturbed c path s.trie (unguarded (s.underway.eraseIdx i) u)))

/-- Behind a call of the same mutex, a call has done nothing yet. -/
def Waiting (s : Serving) : Prop :=
  s.underway.Pairwise fun u u' => u.call.mutex ≠ none → u'.call.mutex = u.call.mutex →
    u'.place.inside = false ∧ u'.log = []

section Steps

variable {c : Crypto} {memcached : EasyMemcached} {s : Serving} {event : ServingEvent}
  {underway : List Underway} {u : Underway} {i : Nat} {path : List (Fin 16)}

/-- Before the first of those that wait for a mutex, no call has it. -/
theorem mutex_of_isFirst (h : isFirst underway i u = true) {j : Nat} {other : Underway}
    (hother : underway[j]? = some other) (hj : j < i) (hmutex : u.call.mutex = other.call.mutex) :
    other.call.mutex = none := by
  rcases (Bool.or_eq_true _ _).mp h with hnone | hall
  · rw [← hmutex]
    exact of_decide_eq_true hnone
  · rcases List.getElem?_eq_some_iff.mp hother with ⟨hlt, rfl⟩
    have hmem : underway[j] ∈ underway.take i :=
      List.mem_take_iff_getElem.mpr ⟨j, Nat.lt_min.mpr ⟨hj, hlt⟩, rfl⟩
    exact absurd hmutex.symm (of_decide_eq_true (List.all_eq_true.mp hall _ hmem))

/-- What a step of a call does to the list of calls. -/
theorem goOn_cases (s : Serving) (i : Nat) (path : List (Fin 16)) :
    s.goOn c i path = s ∨
      ∃ u, s.underway[i]? = some u ∧ isFirst s.underway i u = true ∧
        ((∃ u', u'.call = u.call ∧ (s.goOn c i path).underway = s.underway.set i u' ∧
            (s.goOn c i path).answered = s.answered) ∨
          ∃ answer, (s.goOn c i path).underway = s.underway.eraseIdx i ∧
            (s.goOn c i path).answered = s.answered ++ [(u.call, answer)]) := by
  rw [goOn]
  split
  · rename_i u hu
    split
    · rename_i hfirst
      refine .inr ⟨u, hu, hfirst, ?_⟩
      split
      · rename_i place _ _
        exact .inl ⟨⟨u.call, place, u.log ++ u.place.effect.toList⟩, rfl, rfl, rfl⟩
      · exact .inr ⟨_, rfl, rfl⟩
    · exact .inl rfl
  · exact .inl rfl

theorem Waiting.step (h : s.Waiting) : (s.step c memcached event).Waiting := by
  cases event with
  | call call =>
      refine List.pairwise_append.mpr ⟨h, List.pairwise_singleton _ _, ?_⟩
      intro u _ u' hu' _ _
      rw [List.mem_singleton.mp hu']
      exact ⟨rfl, rfl⟩
  | goOn i path =>
      change (s.goOn c i path).Waiting
      rcases s.goOn_cases (c := c) i path with hsame | ⟨u, hu, hfirst, hnext | ⟨answer, hends, -⟩⟩
      · rw [hsame]
        exact h
      · rcases hnext with ⟨u', hcall, hunderway, -⟩
        rw [Waiting, hunderway]
        refine List.pairwise_iff_getElem.mpr ?_
        intro j k hj hk hjk hmutex hsame
        rw [List.length_set] at hj hk
        have hold := List.pairwise_iff_getElem.mp h j k hj hk hjk
        rcases List.getElem?_eq_some_iff.mp hu with ⟨hi, hget⟩
        rw [List.getElem_set] at hmutex hsame ⊢
        rw [List.getElem_set] at hsame
        by_cases hki : i = k
        · -- the call that goes on is the first of its mutex
          subst hki
          rw [if_pos rfl, if_neg (by omega), hcall] at hsame
          rw [if_neg (by omega)] at hmutex
          exact absurd (mutex_of_isFirst hfirst (List.getElem?_eq_getElem hj) hjk hsame) hmutex
        · rw [if_neg hki] at hsame ⊢
          by_cases hji : i = j
          · subst hji
            rw [if_pos rfl, hcall] at hmutex hsame
            rw [hget] at hold
            exact hold hmutex hsame
          · rw [if_neg hji] at hmutex hsame
            exact hold hmutex hsame
      · rw [Waiting, hends]
        exact h.sublist (List.eraseIdx_sublist ..)

/-- The other calls: those that do not wait for the mutex of the first one, and those that do, which have
done nothing yet. -/
theorem Waiting.of_mem_eraseIdx (h : s.Waiting) (hu : s.underway[i]? = some u)
    (hfirst : isFirst s.underway i u = true) {other : Underway}
    (hother : other ∈ s.underway.eraseIdx i) :
    other ∈ unguarded (s.underway.eraseIdx i) u ∨ other.place.inside = false ∧ other.log = [] := by
  by_cases hguard : u.call.mutex = none ∨ other.call.mutex ≠ u.call.mutex
  · refine .inl (List.mem_filter.mpr ⟨hother, ?_⟩)
    rcases hguard with hnone | hne
    · exact (Bool.or_eq_true _ _).mpr (.inl (decide_eq_true hnone))
    · exact (Bool.or_eq_true _ _).mpr (.inr (decide_eq_true hne))
  · rw [not_or, ne_eq, not_not] at hguard
    rcases List.mem_eraseIdx_iff_getElem.mp hother with ⟨j, hj, hne, rfl⟩
    rcases List.getElem?_eq_some_iff.mp hu with ⟨hi, rfl⟩
    rcases Nat.lt_or_gt_of_ne hne with hlt | hgt
    · -- the call would not be the first
      have hnone := mutex_of_isFirst hfirst (List.getElem?_eq_getElem hj) hlt hguard.2.symm
      exact absurd (hguard.2.symm.trans hnone) hguard.1
    · exact .inr (List.pairwise_iff_getElem.mp h i j hi hj hgt hguard.1 hguard.2)

/-- Calls that wait for the mutex of the call are not disturbed, nor do they disturb it. -/
theorem Waiting.undisturbed (h : s.Waiting) (hapart : s.Apart c event) : s.Undisturbed c event := by
  cases event with
  | call call => trivial
  | goOn i path =>
      intro u hu hfirst
      have hund := hapart u hu hfirst
      refine ⟨?_, ?_, hund.assigns, ?_⟩
      · intro hbegins other hother
        rcases h.of_mem_eraseIdx hu hfirst hother with hmem | hwaits
        · exact hund.begins hbegins other hmem
        · exact Place.replaced_of_not_inside hwaits.1
      · intro hreplaces other hother
        rcases h.of_mem_eraseIdx hu hfirst hother with hmem | hwaits
        · exact hund.replaces hreplaces other hmem
        · exact hwaits.1
      · intro access haccess other hother access' haccess'
        rcases h.of_mem_eraseIdx hu hfirst hother with hmem | hwaits
        · exact hund.effect access haccess other hmem access' haccess'
        · rw [hwaits.2] at haccess'
          cases haccess'

end Steps

end Serving

/-! ## Calls of one mutex -/

/-- The root hash that an operation under way began with. -/
def Place.root : Place → Option Hash
  | building update _ | saving update _ _ | rooted update _ _ => some update.root
  | _ => none

/-- All calls wait for one mutex, and the root is the one that the first of them began with. -/
structure Serving.Queued (mutex : CallMutex) (s : Serving) : Prop where
  mutex : ∀ u ∈ s.underway, u.call.mutex = some mutex
  waiting : s.Waiting
  root : ∀ u ∈ s.underway, ∀ root ∈ u.place.root, s.trie.rootHash = root

section OneMutex

variable {c : Crypto} {memcached : EasyMemcached} {start : Contents} {s : Serving}
  {event : ServingEvent} {trie : MerklePatriciaTrie} {mutex : CallMutex}

theorem Place.root_of_not_inside {place : Place} (h : place.inside = false) : place.root = none := by
  cases place with
  | between code => rfl
  | looking code next => rfl
  | building update code => cases h
  | saving update replaced root => cases h
  | rooted update replaced newRoot => cases h

theorem Place.root_of_assigns {place : Place} {root : Hash} (h : root ∈ place.assigns) :
    root ∈ place.root := by
  cases place with
  | rooted update replaced newRoot => exact h
  | between code => cases h
  | looking code next => cases h
  | building update code => cases h
  | saving update replaced root => cases h

/-- The root changes with the end of an operation only. -/
theorem Place.root_step {path : List (Fin 16)} {place next : Place} {trie' : MerklePatriciaTrie}
    (h : ∀ root ∈ place.root, trie.rootHash = root)
    (hstep : place.step c path trie = (.goes next, trie')) :
    ∀ root ∈ next.root, trie'.rootHash = root := by
  cases place with
  | between code =>
      cases code with
      | done answer => cases hstep
      | call access rest =>
          cases access with
          | get key =>
              simp only [step, begin] at hstep
              split at hstep
              · cases hstep
                intro root hroot
                cases hroot
              · cases hstep
          | apply op =>
              simp only [step, begin] at hstep
              split at hstep
              · cases hstep
                intro root hroot
                exact Option.some.inj hroot
              · cases hstep
  | looking code rest =>
      cases code with
      | done answer =>
          cases answer with
          | ok content =>
              cases hstep
              intro root hroot
              cases hroot
          | error e => cases hstep
      | call hash rest' =>
          simp only [step, read] at hstep
          split at hstep
          · cases hstep
            intro root hroot
            cases hroot
          · cases hstep
  | building update code =>
      cases code with
      | done answer =>
          cases answer with
          | ok normalized =>
              cases hstep
              exact h
          | error e => cases hstep
      | call hash rest =>
          simp only [step, read] at hstep
          split at hstep
          · cases hstep
            exact h
          · cases hstep
  | saving update replaced root =>
      rw [step] at hstep
      split at hstep
      · cases hstep
        exact h
      · rw [put] at hstep
        split at hstep
        · split at hstep
          · cases hstep
            exact h
          · cases hstep
        · cases hstep
          exact h
  | rooted update replaced newRoot =>
      cases hstep
      intro root hroot
      cases hroot

/-- There are no calls that wait for anything else. -/
theorem Serving.Queued.unguarded_eq_nil (h : s.Queued mutex) {i : Nat} {u : Underway}
    (hu : s.underway[i]? = some u) : unguarded (s.underway.eraseIdx i) u = [] := by
  refine List.filter_eq_nil_iff.mpr ?_
  intro other hother
  rw [h.mutex u (List.mem_of_getElem? hu), h.mutex other (List.eraseIdx_subset hother)]
  simp

theorem Serving.Queued.apart (h : s.Queued mutex) : s.Apart c event := by
  cases event with
  | call call => trivial
  | goOn i path =>
      intro u hu _
      rw [h.unguarded_eq_nil hu]
      refine ⟨by simp, by simp, ?_, by simp⟩
      intro root hroot
      exact h.root u (List.mem_of_getElem? hu) root (Place.root_of_assigns hroot)

/-- Only the call that goes on has a root. -/
theorem Serving.Queued.root_of_mem_eraseIdx (h : s.Queued mutex) {i : Nat} {u other : Underway}
    (hu : s.underway[i]? = some u) (hfirst : isFirst s.underway i u = true)
    (hother : other ∈ s.underway.eraseIdx i) : other.place.root = none := by
  rcases h.waiting.of_mem_eraseIdx hu hfirst hother with hmem | hwaits
  · rw [h.unguarded_eq_nil hu] at hmem
    cases hmem
  · exact Place.root_of_not_inside hwaits.1

theorem Serving.Queued.step (h : s.Queued mutex)
    (hcall : ∀ call, event = .call call → call.mutex = some mutex) :
    (s.step c memcached event).Queued mutex := by
  cases event with
  | call call =>
      have hnew := hcall call rfl
      refine ⟨?_, h.waiting.step, ?_⟩
      · intro u hu
        rcases List.mem_append.mp hu with hu | hu
        · exact h.mutex u hu
        · rw [List.mem_singleton.mp hu]
          exact hnew
      · intro u hu
        rcases List.mem_append.mp hu with hu | hu
        · exact h.root u hu
        · rw [List.mem_singleton.mp hu]
          intro root hroot
          cases hroot
  | goOn i path =>
      have hwaiting : (s.step c memcached (.goOn i path)).Waiting := h.waiting.step
      rw [Serving.step, Serving.goOn] at hwaiting ⊢
      cases hu : s.underway[i]? with
      | none => exact h
      | some u =>
          simp only [hu] at hwaiting ⊢
          by_cases hfirst : isFirst s.underway i u = true
          · rw [if_pos hfirst] at hwaiting ⊢
            have hmem := List.mem_of_getElem? hu
            rcases List.getElem?_eq_some_iff.mp hu with ⟨hi, -⟩
            cases hturn : u.place.step c path s.trie with
            | mk turn trie =>
                rw [hturn] at hwaiting
                cases turn with
                | goes place =>
                    refine ⟨?_, hwaiting, ?_⟩
                    · intro other hother
                      rcases List.mem_or_eq_of_mem_set hother with hother | rfl
                      · exact h.mutex other hother
                      · exact h.mutex u hmem
                    · intro other hother
                      rcases List.mem_cons.mp ((List.set_perm_cons_eraseIdx hi _).mem_iff.mp hother)
                        with rfl | hother
                      · exact Place.root_step (h.root u hmem) hturn
                      · rw [h.root_of_mem_eraseIdx hu hfirst hother]
                        nofun
                | ends answer =>
                    refine ⟨fun other hother => h.mutex other (List.eraseIdx_subset hother), hwaiting, ?_⟩
                    intro other hother
                    rw [h.root_of_mem_eraseIdx hu hfirst hother]
                    nofun
          · rw [if_neg hfirst]
            exact h

/-- Calls of one mutex, in any interleaving: they are answered as they would be one after another, in
this order, and leave the contents that this would leave. -/
theorem Serving.answers_eq_replies_of_mutex (hrep : Represents c trie start) (mutex : CallMutex)
    (events : List ServingEvent) (hmutex : ∀ call, .call call ∈ events → call.mutex = some mutex)
    (hc : NoCollision c (events.foldl (step c memcached) ⟨trie, [], []⟩).trie.saved) :
    let s := events.foldl (step c memcached) ⟨trie, [], []⟩
    (Call.replies memcached (s.answered.map Prod.fst) start).1 = s.answered.map Prod.snd ∧
      (s.underway = [] →
        Represents c s.trie (Call.replies memcached (s.answered.map Prod.fst) start).2) := by
  have halong : Along (step c memcached) ⟨trie, [], []⟩ events fun _ event =>
      ∀ call, event = .call call → call.mutex = some mutex := by
    rintro before event after rfl call rfl
    exact hmutex call (by simp)
  have hinit : Serving.Queued mutex ⟨trie, [], []⟩ := ⟨by simp, .nil, by simp⟩
  have hqueued := halong.throughout hinit fun s event h hcall => h.step hcall
  have hund := hqueued.along halong fun s event h _ =>
    (h.waiting.undisturbed h.apart : s.Undisturbed c event)
  rcases Serving.exists_correct hrep hund hc with ⟨contents, hcorrect⟩
  exact hcorrect.replies

/-- Two connections: an `incr` waits while a `set` of the same key goes through its steps. -/
def setAndIncr : List ServingEvent :=
  [.call (.set [1] 0 [55]), .goOn 0 [], .call (.incr [1] (.integer 1)), .goOn 1 []] ++
    List.replicate 17 (.goOn 0 [])

theorem Serving.answers_eq_replies_setAndIncr :
    let s := setAndIncr.foldl (step .transparent ⟨false, .readWrite⟩) ⟨freshTrie, [], []⟩
    (Call.replies ⟨false, .readWrite⟩ (s.answered.map Prod.fst) fun _ => none).1 =
        s.answered.map Prod.snd ∧
      (s.underway = [] → Represents .transparent s.trie
        (Call.replies ⟨false, .readWrite⟩ (s.answered.map Prod.fst) fun _ => none).2) := by
  refine Serving.answers_eq_replies_of_mutex represents_freshTrie .memcached setAndIncr ?_
    (by decide +kernel)
  intro call hcall
  simp only [setAndIncr, List.mem_append, List.mem_cons, List.mem_replicate, List.not_mem_nil,
    reduceCtorEq, and_false, or_false, false_or, ServingEvent.call.injEq] at hcall
  rcases hcall with rfl | rfl
  · rfl
  · rfl

end OneMutex

end EasyFramework
end UniqysKit
