import UniqysKit.EasyFramework.Controller

/-!
# The trie of the easy framework stays sound

Whatever the application calls, and wherever a call throws, the trie stays sound and holds only keys
of the framework.  `Stable` is the rule for this, one part of a program at a time; `Quiet` adds that
the next validator set stays as it is, which is so for everything but `PUT /validators`.
-/

namespace UniqysKit
namespace EasyFramework

open Library

/-! ## Rules -/

section Rules

variable (c : Crypto)

/-- The keys the framework uses: those of accounts, and those below the zero address. -/
def IsStateKey (key : Bytes) : Prop := key.length = 20 ∨ Address.zero.buffer <+: key

/-- The trie is sound, and its keys are keys of the framework. -/
def State.Sound (state : State) : Prop :=
  ∃ t, MerklePatriciaTrie.Sound c state.top t ∧ ∀ content ∈ t.contents, IsStateKey content.key

/-- The nodes saved so far. -/
def State.saved (state : State) : List Node := state.top.saved

/-- From a sound state the action leads to a sound state, throwing or not, unless saved nodes
collide. It keeps the list of saved nodes, and the trie ready. -/
structure Stable {α : Type} (action : Action State α) : Prop where
  forward : Fallible.Respects (.comap State.top MerklePatriciaTrie.forward) action
  sound : ∀ state, state.Sound c →
    NoCollision c (Fallible.final (action state)).saved → (Fallible.final (action state)).Sound c

/-- The action also leaves the next validator set alone. -/
structure Quiet {α : Type} (action : Action State α) : Prop extends Stable c action where
  validators : Fallible.Respects (.constant fun state : State => state.metaState.nextValidatorSet)
    action

variable {c} {α β : Type}

theorem Stable.bind {x : Action State α} {f : α → Action State β} (hx : Stable c x)
    (hf : ∀ a, Stable c (f a)) : Stable c (x >>= f) := by
  refine ⟨hx.forward.bind fun a => (hf a).forward, ?_⟩
  intro state hstate hc
  have hgrow := Fallible.Respects.final_bind (x := x) (fun a => (hf a).forward) state
  have hfirst := hx.sound state hstate (hc.mono hgrow.1.subset)
  -- the second part starts from a sound state
  rcases Fallible.bind_cases x f state with ⟨a, state', hxs, hbind⟩ | ⟨e, state', hxs, hbind⟩
  · rw [hxs] at hfirst
    rw [hbind] at hc ⊢
    exact (hf a).sound state' hfirst hc
  · rw [hxs] at hfirst
    rw [hbind]
    exact hfirst

/-- Actions that do not touch the trie. -/
theorem Stable.of_top {action : Action State α}
    (h : ∀ state, (Fallible.final (action state)).top = state.top) : Stable c action := by
  refine ⟨?_, ?_⟩
  · intro state
    show MerklePatriciaTrie.forward.rel state.top (Fallible.final (action state)).top
    rw [h]
    exact MerklePatriciaTrie.forward.refl state.top
  · rintro state ⟨t, ht, hkeys⟩ -
    refine ⟨t, ?_, hkeys⟩
    rw [h]
    exact ht

theorem Quiet.bind {x : Action State α} {f : α → Action State β} (hx : Quiet c x)
    (hf : ∀ a, Quiet c (f a)) : Quiet c (x >>= f) :=
  ⟨hx.toStable.bind fun a => (hf a).toStable, hx.validators.bind fun a => (hf a).validators⟩

theorem Quiet.of_top {action : Action State α}
    (h : ∀ state, (Fallible.final (action state)).top = state.top)
    (h' : ∀ state, (Fallible.final (action state)).metaState.nextValidatorSet =
      state.metaState.nextValidatorSet) : Quiet c action :=
  ⟨.of_top h, h'⟩

theorem Quiet.pure (a : α) : Quiet c (Pure.pure a : Action State α) :=
  .of_top (fun _ => rfl) fun _ => rfl

theorem Quiet.throw (e : Error) : Quiet c (throw e : Action State α) :=
  .of_top (fun _ => rfl) fun _ => rfl

theorem Quiet.get : Quiet c (MonadState.get : Action State State) :=
  .of_top (fun _ => rfl) fun _ => rfl

theorem Quiet.fromResult (r : Result α) : Quiet c (Action.fromResult r) := by
  cases r with
  | ok a => exact .pure a
  | error e => exact .throw e

/-- What follows a computation may use that it went through. -/
theorem Quiet.fromResult_bind {r : Result α} {f : α → Action State β}
    (hf : ∀ a, r = .ok a → Quiet c (f a)) : Quiet c (Action.fromResult r >>= f) := by
  cases r with
  | ok a =>
      have hpure : (Action.fromResult (.ok a) >>= f) = f a := pure_bind a f
      rw [hpure]
      exact hf a rfl
  | error e => exact .of_top (fun _ => rfl) fun _ => rfl

theorem final_onTop (action : Action MerklePatriciaTrie α) (state : State) :
    Fallible.final (State.onTop action state) =
      { state with top := Fallible.final (action state.top) } := by
  unfold State.onTop
  cases action state.top with
  | ok a top => rfl
  | error e top => rfl

theorem Quiet.get_top (key : Bytes) : Quiet c (State.onTop (MerklePatriciaTrie.get key)) := by
  refine .of_top ?_ ?_
  · intro state
    rw [final_onTop]
    exact @MerklePatriciaTrie.respects_get (.constant id) key state.top
  · intro state
    rw [final_onTop]

/-- Operations on the trie, if a key that is set is a key of the framework. -/
theorem Quiet.apply_top (op : Operation)
    (hop : ∀ content, op = .set content → IsStateKey content.key) :
    Quiet c (State.onTop (op.apply c)) := by
  refine ⟨⟨?_, ?_⟩, ?_⟩
  · intro state
    rw [final_onTop]
    exact op.forward_apply c state.top
  · rintro state ⟨t, ht, hkeys⟩ hc
    rw [final_onTop] at hc ⊢
    rcases ht.apply op with ⟨trie', happly, hsound⟩
    rw [happly] at hc ⊢
    rcases hsound hc with ⟨t', ht', hmap, -⟩
    refine ⟨t', ht', ?_⟩
    intro content hmem
    rcases Patricia.mem_contents.mp hmem with ⟨k, hk⟩
    rw [hmap] at hk
    rcases Operation.effect_cases hk with ⟨hset, -⟩ | hold
    · exact hop content hset
    · exact hkeys content (Patricia.mem_contents.mpr ⟨k, hold⟩)
  · intro state
    rw [final_onTop]
    rfl

end Rules

/-! ## Calls of the application -/

section Calls

variable {c : Crypto}

theorem isStateKey_appKey (key : Bytes) : IsStateKey (State.appKey key) :=
  .inr (List.prefix_append _ _)

theorem isStateKey_address (address : Address) : IsStateKey address.buffer := .inl address.size

/-- Setting what was put together from a key of the framework. -/
theorem quiet_setContent {key : Bytes} (hkey : IsStateKey key) (value : Bytes) :
    Quiet c (do
      let content ← Action.fromResult (State.content key value)
      State.onTop (MerklePatriciaTrie.set c content)) := by
  refine .fromResult_bind ?_
  intro content hcontent
  refine .apply_top (.set content) ?_
  intro content' hset
  cases hset
  unfold State.content at hcontent
  split at hcontent
  · cases hcontent
    exact hkey
  · cases hcontent

theorem quiet_getAccount (address : Address) : Quiet c (State.getAccount address) :=
  (Quiet.get_top _).bind fun _ => .fromResult _

theorem quiet_setAccount (address : Address) (account : Account) :
    Quiet c (State.setAccount c address account) :=
  (Quiet.fromResult _).bind fun value => quiet_setContent (isStateKey_address address) value

namespace EasyMemcached

variable (memcached : EasyMemcached)

theorem quiet_checkWritable : Quiet c memcached.checkWritable := by
  unfold checkWritable
  split
  · exact .throw _
  · exact .pure _

theorem quiet_getItem (key : Bytes) : Quiet c (memcached.getItem key) := by
  refine (Quiet.get_top _).bind ?_
  intro value
  cases value with
  | some v => exact (Quiet.fromResult _).bind fun item => .pure _
  | none => exact .pure _

theorem quiet_setItem (key : Bytes) (item : Item) : Quiet c (memcached.setItem c key item) :=
  (Quiet.fromResult _).bind fun value => quiet_setContent (isStateKey_appKey key) value

theorem quiet_set (key : Bytes) (flags : Int) (data : Bytes) :
    Quiet c (memcached.set c key flags data) := by
  refine memcached.quiet_checkWritable.bind fun _ => ?_
  split
  · exact (memcached.quiet_getItem key).bind fun item =>
      (Quiet.pure _).bind fun casUniq => memcached.quiet_setItem key _
  · exact (Quiet.pure 0).bind fun casUniq => memcached.quiet_setItem key _

theorem quiet_getAndAct (key : Bytes) (action : Option Item → Option Item) :
    Quiet c (memcached.getAndAct c key action) := by
  refine memcached.quiet_checkWritable.bind fun _ => (memcached.quiet_getItem key).bind ?_
  intro item
  split
  · exact memcached.quiet_setItem key _
  · exact .pure _

theorem quiet_gets (keys : List Bytes) : Quiet c (memcached.gets keys) := by
  induction keys with
  | nil => exact .pure _
  | cons key keys ih =>
      refine (Quiet.get_top _).bind ?_
      intro value
      cases value with
      | none => exact ih
      | some v =>
          simp only
          cases Item.deserialize memcached.useCas v with
          | error e => exact .pure _
          | ok item => exact ih.bind fun found => .pure _

theorem quiet_delete (key : Bytes) : Quiet c (memcached.delete c key) := by
  refine memcached.quiet_checkWritable.bind fun _ => (memcached.quiet_getItem key).bind ?_
  intro item
  cases item with
  | some item => exact .apply_top (.delete (State.appKey key)) nofun
  | none => exact .pure _

theorem quiet_flush : Quiet c (memcached.flush c) :=
  memcached.quiet_checkWritable.bind fun _ =>
    .apply_top (.clear (some Address.zero.buffer)) nofun

end EasyMemcached

namespace InnerApi

theorem quiet_assert400 {α : Type} (value : Option α) : Quiet c (assert400 value) := by
  cases value with
  | some a => exact .pure a
  | none => exact .throw _

theorem quiet_readAccount (address : Option Address) : Quiet c (readAccount address) :=
  (quiet_assert400 address).bind fun address => quiet_getAccount address

theorem quiet_putBalance (address : Option Address) (balance : Option ℚ) :
    Quiet c (putBalance c address balance) :=
  (quiet_assert400 address).bind fun address => (quiet_assert400 _).bind fun _ =>
    (quiet_getAccount address).bind fun _ => quiet_setAccount address _

theorem quiet_transfer (fromAddress toAddress : Option Address) (value : Option ℚ) :
    Quiet c (transfer c fromAddress toAddress value) :=
  (quiet_assert400 fromAddress).bind fun fromAddress => (quiet_assert400 toAddress).bind fun toAddress =>
    (quiet_assert400 _).bind fun _ => (quiet_getAccount fromAddress).bind fun _ =>
      (Quiet.fromResult _).bind fun _ => (quiet_setAccount fromAddress _).bind fun _ =>
        (quiet_getAccount toAddress).bind fun _ => quiet_setAccount toAddress _

end InnerApi

namespace Call

/-- The set that a call writes as the next validator set, if it does. -/
def validators : Call → Option ValidatorSet
  | putValidators body => do
      (State.writtenValidatorSet (← InnerApi.parseValidators body)).toOption
  | _ => none

/-- The set that the last call to do so has written. -/
def lastValidators (calls : List Call) : Option ValidatorSet := (calls.filterMap validators).getLast?

/-- A call that is not `PUT /validators` is quiet. -/
theorem quiet_run (memcached : EasyMemcached) {call : Call}
    (h : ∀ body, call ≠ putValidators body) : Quiet c (call.run c memcached) := by
  cases call with
  | other => exact .pure ()
  | retrieve keys withCas => exact (memcached.quiet_gets keys).bind fun _ => .pure ()
  | getAccount address part =>
      exact (InnerApi.quiet_readAccount address).bind fun _ => .pure ()
  | set key flags data => exact memcached.quiet_set key flags data
  | add key flags data => exact memcached.quiet_getAndAct key _
  | replace key flags data => exact memcached.quiet_getAndAct key _
  | append key data => exact memcached.quiet_getAndAct key _
  | prepend key data => exact memcached.quiet_getAndAct key _
  | cas key flags casUniq data => exact memcached.quiet_getAndAct key _
  | delete key => exact memcached.quiet_delete key
  | incr key value => exact memcached.quiet_getAndAct key _
  | decr key value => exact memcached.quiet_getAndAct key _
  | flush => exact memcached.quiet_flush
  | putBalance address balance => exact InnerApi.quiet_putBalance address balance
  | transfer fromAddress toAddress value =>
      exact InnerApi.quiet_transfer fromAddress toAddress value
  | putValidators body => exact absurd rfl (h body)

/-- `PUT /validators` touches the next validator set and nothing else. -/
theorem final_putValidators (body : List (Option Address × PowerValue)) (state : State) :
    Fallible.final (InnerApi.putValidators body state) =
      { state with metaState.nextValidatorSet :=
          (putValidators body).validators.getD state.metaState.nextValidatorSet } := by
  simp only [InnerApi.putValidators, validators]
  cases InnerApi.parseValidators body with
  | none => rfl
  | some newValidators =>
      simp only [InnerApi.assert400, pure_bind, State.setNextValidatorSet, Option.bind_eq_bind,
        Option.bind_some]
      cases State.writtenValidatorSet newValidators with
      | ok set => rfl
      | error e => rfl

theorem stable_run (memcached : EasyMemcached) (call : Call) : Stable c (call.run c memcached) := by
  by_cases h : ∀ body, call ≠ putValidators body
  · exact (quiet_run memcached h).toStable
  · push Not at h
    rcases h with ⟨body, rfl⟩
    refine .of_top ?_
    intro state
    rw [run, final_putValidators]

theorem serve_validators (memcached : EasyMemcached) (call : Call) (state : State) :
    (call.serve c memcached state).metaState.nextValidatorSet =
      call.validators.getD state.metaState.nextValidatorSet := by
  by_cases h : ∀ body, call ≠ putValidators body
  · have hnone : call.validators = none := by
      cases call with
      | putValidators body => exact absurd rfl (h body)
      | _ => rfl
    rw [hnone]
    exact (quiet_run memcached h).validators state
  · push Not at h
    rcases h with ⟨body, rfl⟩
    rw [serve, run, final_putValidators]

/-- After some calls the next validator set is the one that was written last. -/
theorem serveAll_validators (memcached : EasyMemcached) (calls : List Call) (state : State) :
    (serveAll c memcached calls state).metaState.nextValidatorSet =
      (lastValidators calls).getD state.metaState.nextValidatorSet := by
  induction calls generalizing state with
  | nil => rfl
  | cons call calls ih =>
      have hlast : (lastValidators (call :: calls)).getD state.metaState.nextValidatorSet =
          (lastValidators calls).getD (call.validators.getD state.metaState.nextValidatorSet) := by
        unfold lastValidators
        cases hcall : call.validators with
        | none => rw [List.filterMap_cons_none hcall, Option.getD_none]
        | some set =>
            rw [List.filterMap_cons_some hcall, List.getLast?_cons, Option.getD_some,
              Option.getD_some]
      rw [hlast, ← serve_validators memcached call state]
      exact ih (call.serve c memcached state)

theorem stable_serveAll (memcached : EasyMemcached) (calls : List Call) :
    Stable c (modify (serveAll c memcached calls) : Action State PUnit) := by
  induction calls with
  | nil => exact .of_top fun _ => rfl
  | cons call calls ih =>
      have hsplit : (modify (serveAll c memcached (call :: calls)) : Action State PUnit) = (do
          modify (call.serve c memcached)
          modify (serveAll c memcached calls)) := rfl
      rw [hsplit]
      exact Stable.bind ⟨(stable_run memcached call).forward, (stable_run memcached call).sound⟩
        fun _ => ih

end Call

end Calls

/-! ## The state at the start and between blocks -/

section States

variable {c : Crypto}

theorem quiet_modifyMeta {f : MetaState → MetaState}
    (h : ∀ metaState, (f metaState).nextValidatorSet = metaState.nextValidatorSet) :
    Quiet c (State.modifyMeta f) :=
  .of_top (fun _ => rfl) fun state => h state.metaState

theorem quiet_newHeight (blockTimestamp : Nat) (validTxHashes : List Hash) (eventExists : Bool)
    (eventTxRoot : Hash) :
    Quiet c (State.newHeight blockTimestamp validTxHashes eventExists eventTxRoot) := by
  refine Quiet.get.bind fun _ => (Quiet.fromResult _).bind fun _ => Quiet.bind ?_ fun _ =>
    Quiet.get.bind fun _ => ?_
  · exact quiet_modifyMeta fun _ => rfl
  · exact quiet_modifyMeta fun _ => rfl

/-- A fresh state becomes ready, with an empty trie. -/
theorem ready_sound (timestamp : Nat) (initialValidatorSet : ValidatorSet) :
    (Fallible.final (State.ready c timestamp initialValidatorSet (State.new c))).Sound c := by
  rcases MerklePatriciaTrie.ready_new c with ⟨trie, hready, hsound⟩
  have htop : State.onTop (MerklePatriciaTrie.ready c) (State.new c) =
      .ok () { State.new c with top := trie } := by
    simp only [State.onTop, State.new, hready]
  rw [State.ready, Fallible.bind_ok htop]
  refine ⟨.nil, hsound, ?_⟩
  intro content hmem
  simp [Patricia.contents] at hmem

end States

end EasyFramework
end UniqysKit
