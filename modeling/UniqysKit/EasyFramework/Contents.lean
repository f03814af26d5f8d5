import UniqysKit.EasyFramework.Accesses

/-!
# The contents of the trie

A sound trie stands for a map from keys to values, and what a call does with the trie is what its
code does with this map.  Each call has a footprint: it neither looks at other keys nor changes them.
-/

namespace UniqysKit
namespace EasyFramework

open Library

abbrev Contents := Bytes → Option Bytes

namespace Access

/-- What an access does with the contents. -/
def exact : (access : Access) → EStateM Error Contents access.Res
  | get key => fun contents => .ok (contents key) contents
  | apply op => fun contents => .ok () (op.update contents)

/-- The access neither looks at other keys nor changes them. -/
def Within (keys : Set Bytes) : Access → Prop
  | get key => key ∈ keys
  | apply (.set content) => content.key ∈ keys
  | apply (.delete key) => key ∈ keys
  | apply (.clear keyPrefix) => ∀ key, keyPrefix.getD [] <+: key → key ∈ keys

end Access

/-- The code, on the contents alone. -/
abbrev Code.onContents {α : Type} (code : Code α) : EStateM Error Contents α :=
  code.run Access.exact

/-- The trie is sound and has these contents. -/
def Represents (c : Crypto) (trie : MerklePatriciaTrie) (contents : Contents) : Prop :=
  ∃ t, trie.Sound c t ∧ ∀ key, (t.lookup (Key.bufferToKey key)).map Content.value = contents key

/-! ## The trie and its contents -/

/-- What is put together from a key and a value has that key and that value. -/
theorem content_ok {key value : Bytes} {content : Content} (h : State.content key value = .ok content) :
    content.key = key ∧ content.value = value := by
  unfold State.content at h
  split at h
  · cases h
    exact ⟨rfl, rfl⟩
  · cases h

section Represents

variable {c : Crypto} {trie : MerklePatriciaTrie} {contents contents' : Contents}

theorem Represents.get (h : Represents c trie contents) (key : Bytes) :
    MerklePatriciaTrie.get key trie = .ok (contents key) trie := by
  rcases h with ⟨t, ht, hcontents⟩
  rw [ht.get, hcontents]

theorem Represents.unique (h : Represents c trie contents) (h' : Represents c trie contents') :
    contents = contents' := by
  funext key
  exact (EStateM.Result.ok.inj ((h.get key).symm.trans (h'.get key))).1

/-- Going back to fewer saved nodes, none of them collide either. -/
theorem Forward.backward {α : Type} {action : Action MerklePatriciaTrie α}
    (h : MerklePatriciaTrie.Forward action) :
    Fallible.Respects (.backward fun trie => NoCollision c trie.saved) action := by
  intro trie hc
  exact hc.mono (h trie).1.subset

theorem Access.simulates_exact (access : Access) :
    Fallible.Simulates (fun trie => NoCollision c trie.saved) (Represents c) (access.act c)
      access.exact := by
  cases access with
  | get key =>
      refine ⟨Forward.backward (MerklePatriciaTrie.respects_get key), ?_⟩
      intro trie contents hrep _
      rw [Access.act, hrep.get]
      exact ⟨rfl, hrep⟩
  | apply op =>
      refine ⟨Forward.backward (op.forward_apply c), ?_⟩
      rintro trie contents ⟨t, ht, hcontents⟩ hc
      rcases ht.apply op with ⟨trie', happly, hsound⟩
      rw [Access.act, happly] at hc ⊢
      rcases hsound hc with ⟨t', ht', hmap, -⟩
      refine ⟨rfl, t', ht', ?_⟩
      intro key
      have hold : (fun key => (t.lookup (Key.bufferToKey key)).map Content.value) = contents :=
        funext hcontents
      calc
        (t'.lookup (Key.bufferToKey key)).map Content.value
            = (op.effect t.lookup (Key.bufferToKey key)).map Content.value := by rw [hmap]
        _ = op.update contents key := by rw [Operation.effect_value, hold]

/-- Code on a sound trie does what it does on the contents, unless saved nodes collide. -/
theorem Code.simulates_onContents {α : Type} (code : Code α) :
    Fallible.Simulates (fun trie => NoCollision c trie.saved) (Represents c) (code.onTrie c)
      code.onContents :=
  (Program.uses_any code).simulates fun access _ => access.simulates_exact

/-- An action does with the contents what its code does, and returns or throws the same. -/
theorem Matches.onContents {α : Type} {action : Action State α} {code : Code α}
    (h : Matches c action code) {state : State} (hrep : Represents c state.top contents)
    (hc : NoCollision c (Fallible.final (action state)).saved) :
    Fallible.outcome (action state) = Fallible.outcome (code.onContents contents) ∧
      Represents c (Fallible.final (action state)).top (Fallible.final (code.onContents contents)) := by
  rcases (h _).same state state.top ⟨rfl, rfl⟩ trivial with ⟨hout, htop, -⟩
  unfold State.saved at hc
  rw [htop] at hc ⊢
  rw [hout]
  exact code.simulates_onContents.same state.top contents hrep hc

/-- The contents after a call. -/
theorem represents_serve {state : State} (hrep : Represents c state.top contents)
    (memcached : EasyMemcached) (call : Call)
    (hc : NoCollision c (call.serve c memcached state).saved) :
    Represents c (call.serve c memcached state).top
      (Fallible.final ((call.code memcached).onContents contents)) := by
  have hafter := ((Call.matches_run (c := c) memcached call).onContents hrep hc).2
  have hforget : Fallible.final ((call.code memcached).forget.onContents contents) =
      Fallible.final ((call.code memcached).onContents contents) := by
    unfold Code.forget Code.onContents
    rw [Program.run_bind]
    exact Fallible.final_bind_pure _ _ _
  rw [hforget] at hafter
  exact hafter

/-- A sound state has contents. -/
theorem State.Sound.represents {state : State} (h : state.Sound c) :
    ∃ contents, Represents c state.top contents := by
  rcases h with ⟨t, ht, -⟩
  exact ⟨_, t, ht, fun _ => rfl⟩

theorem outcome_get_top {state : State} (hrep : Represents c state.top contents) (key : Bytes) :
    Fallible.outcome (State.onTop (MerklePatriciaTrie.get key) state) = .ok (contents key) := by
  rw [Controller.outcome_onTop, hrep.get]
  rfl

/-- An account depends on its entry only. -/
theorem outcome_getAccount_of_represents {state : State} (hrep : Represents c state.top contents)
    (address : Address) :
    Fallible.outcome (State.getAccount address state) =
      State.accountOf (contents address.buffer) := by
  rw [Controller.outcome_getAccount, outcome_get_top hrep]
  rfl

/-- A fresh state has no contents. -/
theorem represents_ready (timestamp : Nat) (initialValidatorSet : ValidatorSet) :
    Represents c (Fallible.final (State.ready c timestamp initialValidatorSet (State.new c))).top
      fun _ => none := by
  rcases MerklePatriciaTrie.ready_new c with ⟨trie, hready, hsound⟩
  have htop : State.onTop (MerklePatriciaTrie.ready c) (State.new c) =
      .ok () { State.new c with top := trie } := by
    simp only [State.onTop, State.new, hready]
  rw [State.ready, Fallible.bind_ok htop]
  exact ⟨.nil, hsound, fun key => rfl⟩

end Represents

/-! ## Footprints -/

section Footprints

variable {keys : Set Bytes} {access : Access}

/-- Other keys are not changed. -/
theorem Access.Within.respects (h : access.Within keys) {key : Bytes} (hkey : key ∉ keys) :
    Fallible.Respects (.constant fun contents : Contents => contents key) access.exact := by
  intro contents
  cases access with
  | get key' => rfl
  | apply op =>
      cases op with
      | set content =>
          refine if_neg ?_
          rintro rfl
          exact hkey h
      | delete key' =>
          refine if_neg ?_
          rintro rfl
          exact hkey h
      | clear keyPrefix => exact if_neg fun hprefix => hkey (h key hprefix)

/-- Other keys are not looked at. -/
theorem Access.Within.simulates (h : access.Within keys) :
    Fallible.Simulates (fun _ => True) (fun contents contents' => Set.EqOn contents contents' keys)
      access.exact access.exact := by
  refine ⟨fun _ _ => trivial, ?_⟩
  rintro contents contents' heq -
  cases access with
  | get key => exact ⟨congrArg Except.ok (heq h), heq⟩
  | apply op =>
      refine ⟨rfl, ?_⟩
      intro key hkey
      have hold := heq hkey
      cases op with
      | set content =>
          show (if key = content.key then _ else _) = if key = content.key then _ else _
          rw [hold]
      | delete key' =>
          show (if key = key' then _ else _) = if key = key' then _ else _
          rw [hold]
      | clear keyPrefix =>
          show (if keyPrefix.getD [] <+: key then _ else _) =
            if keyPrefix.getD [] <+: key then _ else _
          rw [hold]

end Footprints

/-- The key of the account, if the text is an address. -/
def accountKeys (address : Option Address) : Set Bytes := {key | ∃ a ∈ address, key = a.buffer}

namespace Call

/-- The keys that the call looks at or changes. -/
def footprint : Call → Set Bytes
  | other | putValidators _ => ∅
  | retrieve keys _ => {key | ∃ k ∈ keys, key = State.appKey k}
  | set key _ _ | add key _ _ | replace key _ _ | append key _ | prepend key _ | cas key _ _ _
  | delete key | incr key _ | decr key _ => {State.appKey key}
  | flush => {key | Address.zero.buffer <+: key}
  | getAccount address _ | putBalance address _ => accountKeys address
  | transfer fromAddress toAddress _ => accountKeys fromAddress ∪ accountKeys toAddress

end Call

/-! ### The footprints of the calls -/

section Uses

variable {keys : Set Bytes}

theorem uses_get {key : Bytes} (hkey : key ∈ keys) : (Code.get key).Uses (Access.Within keys) :=
  @Program.uses_perform _ _ _ _ (Access.get key) hkey

theorem uses_apply {op : Operation} (hop : (Access.apply op).Within keys) :
    (Code.apply op).Uses (Access.Within keys) :=
  @Program.uses_perform _ _ _ _ (Access.apply op) hop

theorem uses_setContent {key : Bytes} (hkey : key ∈ keys) (value : Bytes) :
    (do
      let content ← .done (State.content key value)
      Code.apply (.set content) : Code Unit).Uses (Access.Within keys) := by
  refine Program.uses_done_bind ?_
  intro content hcontent
  refine uses_apply ?_
  unfold State.content at hcontent
  split at hcontent
  · cases hcontent
    exact hkey
  · cases hcontent

namespace EasyMemcached

variable (memcached : EasyMemcached) {key : Bytes} (hkey : State.appKey key ∈ keys)

/-- `gets` looks at the entries of its keys and does nothing else. -/
theorem uses_gets {P : Access → Prop} {gotten : List Bytes}
    (hget : ∀ key ∈ gotten, P (.get (State.appKey key))) : (memcached.getsCode gotten).Uses P := by
  induction gotten with
  | nil => exact Program.uses_pure _
  | cons key gotten ih =>
      have hrest := ih fun other hmem => hget other (List.mem_cons_of_mem _ hmem)
      have hfirst : (Code.get (State.appKey key)).Uses P :=
        @Program.uses_perform _ _ _ _ (Access.get _) (hget key List.mem_cons_self)
      refine hfirst.bind ?_
      intro value
      cases value with
      | none => exact hrest
      | some v =>
          simp only
          cases Item.deserialize memcached.useCas v with
          | error e => exact Program.uses_pure _
          | ok item => exact hrest.bind fun _ => Program.uses_pure _

theorem uses_checkWritable : memcached.checkWritableCode.Uses (Access.Within keys) := by
  unfold checkWritableCode
  split
  · exact Program.uses_done _
  · exact Program.uses_pure _

include hkey

theorem uses_getItem : (memcached.getItemCode key).Uses (Access.Within keys) := by
  refine (uses_get hkey).bind ?_
  intro value
  cases value with
  | some v => exact Program.uses_done_bind fun _ _ => Program.uses_pure _
  | none => exact Program.uses_pure _

theorem uses_setItem (item : Item) : (memcached.setItemCode key item).Uses (Access.Within keys) :=
  Program.uses_done_bind fun value _ => uses_setContent hkey value

theorem uses_set (flags : Int) (data : Bytes) :
    (memcached.setCode key flags data).Uses (Access.Within keys) := by
  refine memcached.uses_checkWritable.bind fun _ => ?_
  split
  · exact (memcached.uses_getItem hkey).bind fun _ => (Program.uses_pure _).bind fun _ =>
      (memcached.uses_setItem hkey _).bind fun _ => Program.uses_pure _
  · exact (Program.uses_pure _).bind fun _ =>
      (memcached.uses_setItem hkey _).bind fun _ => Program.uses_pure _

theorem uses_getAndAct (action : Option Item → Option Item × Reply) :
    (memcached.getAndActCode key action).Uses (Access.Within keys) := by
  refine memcached.uses_checkWritable.bind fun _ => (memcached.uses_getItem hkey).bind ?_
  intro item
  rcases action item with ⟨written, reply⟩
  cases written with
  | some written => exact (memcached.uses_setItem hkey written).bind fun _ => Program.uses_pure _
  | none => exact Program.uses_pure _

theorem uses_delete : (memcached.deleteCode key).Uses (Access.Within keys) := by
  refine memcached.uses_checkWritable.bind fun _ => (memcached.uses_getItem hkey).bind ?_
  intro item
  cases item with
  | some item =>
      have hdelete : (Access.apply (.delete (State.appKey key))).Within keys := hkey
      exact (uses_apply hdelete).bind fun _ => Program.uses_pure _
  | none => exact Program.uses_pure _

end EasyMemcached

namespace InnerApi

variable {address : Address} (hkey : address.buffer ∈ keys)

theorem uses_assert400 {α : Type} (value : Option α) :
    (assert400Code value).Uses (Access.Within keys) := by
  cases value with
  | some a => exact Program.uses_pure a
  | none => exact Program.uses_done _

/-- What follows may use that there was a value. -/
theorem uses_assert400_bind {P : Access → Prop} {α β : Type} {value : Option α} {f : α → Code β}
    (h : ∀ a ∈ value, (f a).Uses P) : (assert400Code value >>= f).Uses P := by
  cases value with
  | some a => exact h a rfl
  | none => exact Program.uses_done _

include hkey

theorem uses_getAccount : (getAccountCode address).Uses (Access.Within keys) :=
  (uses_get hkey).bind fun _ => Program.uses_done _

theorem uses_setAccount (account : Account) :
    (setAccountCode address account).Uses (Access.Within keys) :=
  Program.uses_done_bind fun value _ => uses_setContent hkey value

end InnerApi

/-- A call stays within its footprint. -/
theorem Call.uses_code (memcached : EasyMemcached) (call : Call) :
    (call.code memcached).Uses (Access.Within call.footprint) := by
  cases call with
  | other => exact Program.uses_pure _
  | retrieve keys withCas =>
      have hget : ∀ key ∈ keys,
          (Access.get (State.appKey key)).Within (Call.retrieve keys withCas).footprint :=
        fun key hmem => ⟨key, hmem, rfl⟩
      exact (memcached.uses_gets hget).bind fun _ => Program.uses_pure _
  | getAccount address part =>
      refine InnerApi.uses_assert400_bind fun a ha => ?_
      have hkey : a.buffer ∈ accountKeys address := ⟨a, ha, rfl⟩
      exact (InnerApi.uses_getAccount hkey).bind fun _ => Program.uses_pure _
  | set key flags data => exact memcached.uses_set (Set.mem_singleton _) flags data
  | add key flags data => exact memcached.uses_getAndAct (Set.mem_singleton _) _
  | replace key flags data => exact memcached.uses_getAndAct (Set.mem_singleton _) _
  | append key data => exact memcached.uses_getAndAct (Set.mem_singleton _) _
  | prepend key data => exact memcached.uses_getAndAct (Set.mem_singleton _) _
  | cas key flags casUniq data => exact memcached.uses_getAndAct (Set.mem_singleton _) _
  | delete key => exact memcached.uses_delete (Set.mem_singleton _)
  | incr key value => exact memcached.uses_getAndAct (Set.mem_singleton _) _
  | decr key value => exact memcached.uses_getAndAct (Set.mem_singleton _) _
  | flush =>
      refine memcached.uses_checkWritable.bind fun _ => ?_
      -- `clear` touches exactly the keys of the application
      have hclear : (Access.apply (.clear (some Address.zero.buffer))).Within Call.flush.footprint :=
        fun key hprefix => hprefix
      exact (uses_apply hclear).bind fun _ => Program.uses_pure _
  | putBalance address balance =>
      refine InnerApi.uses_assert400_bind fun a ha => InnerApi.uses_assert400_bind fun _ _ => ?_
      have hkey : a.buffer ∈ accountKeys address := ⟨a, ha, rfl⟩
      exact (InnerApi.uses_getAccount hkey).bind fun _ =>
        (InnerApi.uses_setAccount hkey _).bind fun _ => Program.uses_pure _
  | transfer fromAddress toAddress value =>
      refine InnerApi.uses_assert400_bind fun a ha => InnerApi.uses_assert400_bind fun b hb =>
        InnerApi.uses_assert400_bind fun _ _ => ?_
      have hfrom : a.buffer ∈ accountKeys fromAddress ∪ accountKeys toAddress :=
        .inl ⟨a, ha, rfl⟩
      have hto : b.buffer ∈ accountKeys fromAddress ∪ accountKeys toAddress := .inr ⟨b, hb, rfl⟩
      exact (InnerApi.uses_getAccount hfrom).bind fun _ => (Program.uses_done _).bind fun _ =>
        (InnerApi.uses_setAccount hfrom _).bind fun _ => (InnerApi.uses_getAccount hto).bind fun _ =>
          (InnerApi.uses_setAccount hto _).bind fun _ => Program.uses_pure _
  | putValidators body =>
      exact (InnerApi.uses_assert400 _).bind fun _ => (Program.uses_done _).bind fun _ =>
        Program.uses_pure _

end Uses

/-- `get` and `gets` leave the contents as they are. -/
theorem EasyMemcached.final_retrieve (memcached : EasyMemcached) (keys : List Bytes) (withCas : Bool)
    (contents : Contents) :
    Fallible.final ((memcached.retrieveCode keys withCas).onContents contents) = contents := by
  have hget : ∀ key ∈ keys,
      Fallible.Respects (.constant id) (Access.get (State.appKey key)).exact := fun _ _ _ => rfl
  have huses : (memcached.retrieveCode keys withCas).Uses fun access =>
      Fallible.Respects (.constant id) access.exact :=
    (memcached.uses_gets hget).bind fun _ => Program.uses_pure _
  exact huses.respects (fun _ h => h) contents

/-- A request for an account leaves the contents as they are. -/
theorem InnerApi.final_readAccount (address : Option Address) (part : AccountPart)
    (contents : Contents) :
    Fallible.final ((InnerApi.readAccountCode address part).onContents contents) = contents := by
  have hget : ∀ address : Address,
      (Code.get address.buffer).Uses fun access => Fallible.Respects (.constant id) access.exact :=
    fun address => @Program.uses_perform _ _ _ _ (Access.get address.buffer) fun _ => rfl
  have huses : (InnerApi.readAccountCode address part).Uses fun access =>
      Fallible.Respects (.constant id) access.exact :=
    InnerApi.uses_assert400_bind fun address _ =>
      ((hget address).bind fun _ => Program.uses_done _).bind fun _ => Program.uses_pure _
  exact huses.respects (fun _ h => h) contents

/-- A call leaves the contents outside of its footprint alone. -/
theorem Call.onContents_of_notMem (memcached : EasyMemcached) (call : Call) (contents : Contents)
    {key : Bytes} (hkey : key ∉ call.footprint) :
    Fallible.final ((call.code memcached).onContents contents) key = contents key :=
  (call.uses_code memcached).respects (fun _ h => h.respects hkey) contents

end EasyFramework
end UniqysKit
