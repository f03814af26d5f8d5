import UniqysKit.EasyFramework.Contents
import UniqysKit.MerklePatriciaTrie.Relabeling

/-!
# Failed transactions

When the catch branch is taken, everything but three things is as before the transaction.  A validator
set that the application has put stays, since the meta store is not rolled back.  An entry is lost when
a node of the old version was saved again with another label, which can be told from the contents that
the trie has run through.  And a call that was let in before the response can be done after it.
-/

namespace UniqysKit
namespace EasyFramework

open Library

/-! ## What the contents run through -/

/-- The contents, and those after each write so far, of which the newest come first. -/
structure Course where
  contents : Contents
  written : List Contents

/-- What an access does with the contents, with a record of its writes. -/
def Access.recorded : (access : Access) → EStateM Error Course access.Res
  | get key => fun course => .ok (course.contents key) course
  | apply op => fun course =>
      .ok () ⟨op.update course.contents, op.update course.contents :: course.written⟩

/-- The code, on the contents alone. -/
abbrev Code.onCourse {α : Type} (code : Code α) : EStateM Error Course α := code.run Access.recorded

/-- What the contents run through in some calls, one after another. -/
def Call.courseAll (memcached : EasyMemcached) (calls : List Call) (course : Course) : Course :=
  calls.foldl (fun course call => Fallible.final ((call.code memcached).onCourse course)) course

/-- What is in the trie under each key. -/
def State.contents (state : State) : Contents := fun key =>
  (Fallible.value (MerklePatriciaTrie.get key state.top)).join

/-- The trie has come from `start`, which has the contents `before`, on this course. -/
def Follows (c : Crypto) (start : MerklePatriciaTrie) (before : Contents) (trie : MerklePatriciaTrie)
    (course : Course) : Prop :=
  ∃ t₀ trees, TreeOf before t₀ ∧ MerklePatriciaTrie.Traced c start t₀ trie trees ∧
    List.Forall₂ TreeOf course.written trees ∧ TreeOf course.contents (trees.headD t₀)

section Courses

variable {c : Crypto} {start trie : MerklePatriciaTrie} {before : Contents} {course : Course}
  {state : State}

theorem Represents.contents (h : Represents c state.top before) : state.contents = before := by
  funext key
  rw [State.contents, h.get]
  rfl

theorem Represents.follows (h : Represents c start before) :
    Follows c start before start ⟨before, []⟩ := by
  rcases h with ⟨t, ht, hvalues⟩
  exact ⟨t, [], ⟨ht.normal, ht.located, hvalues⟩, ht.traced, .nil, ⟨ht.normal, ht.located, hvalues⟩⟩

theorem Follows.represents (h : Follows c start before trie course) :
    Represents c trie course.contents := by
  rcases h with ⟨t₀, trees, -, htraced, -, htree⟩
  exact ⟨_, htraced.sound, htree.values⟩

/-- The nodes of the start are in the store as they were exactly when the course keeps their labels. -/
theorem Follows.retained_iff (h : Follows c start before trie course) :
    MerklePatriciaTrie.Retained start trie ↔ KeepsLabels before course.written := by
  rcases h with ⟨t₀, trees, htree, htraced, htrees, -⟩
  rw [htraced.retained_iff]
  constructor
  · intro hkeeps t trees' ht htrees'
    obtain rfl : t = t₀ := ht.unique htree
    -- the contents have one tree each
    have hsame : trees' = trees :=
      List.right_unique_forall₂' (fun _ _ _ h h' => h.unique h') htrees' htrees
    rw [hsame]
    exact hkeeps
  · intro hkeeps
    exact hkeeps t₀ trees htree htrees

theorem Access.simulates_recorded (access : Access) :
    Fallible.Simulates (fun trie => NoCollision c trie.saved) (Follows c start before)
      (access.act c) access.recorded := by
  cases access with
  | get key =>
      refine ⟨Forward.backward (MerklePatriciaTrie.respects_get key), ?_⟩
      intro trie course hfollows _
      rw [Access.act, hfollows.represents.get]
      exact ⟨rfl, hfollows⟩
  | apply op =>
      have hforward := op.forward_apply c
      refine ⟨Forward.backward hforward, ?_⟩
      rintro trie course ⟨t₀, trees, htree, htraced, htrees, hnow⟩ hc
      have hgrow := (hforward trie).1.subset
      rcases htraced.sound.apply op with ⟨trie', happly, hsound⟩
      rw [Access.act, happly] at hc ⊢
      rw [happly] at hgrow
      rcases hsound hc with ⟨t', ht', hmap, hwrites⟩
      have hnext : TreeOf (op.update course.contents) t' := by
        refine ⟨ht'.normal, ht'.located, ?_⟩
        intro key
        rw [hmap, Operation.effect_value]
        exact congrArg (fun map => op.update map key) (funext hnow.values)
      exact ⟨rfl, t₀, t' :: trees, htree, htraced.step ht' hwrites hgrow, .cons hnext htrees, hnext⟩

theorem Code.simulates_onCourse {α : Type} (code : Code α) :
    Fallible.Simulates (fun trie => NoCollision c trie.saved) (Follows c start before)
      (code.onTrie c) code.onCourse :=
  (Program.uses_any code).simulates fun access _ => access.simulates_recorded

theorem Follows.serve (h : Follows c start before state.top course) (memcached : EasyMemcached)
    (call : Call) (hc : NoCollision c (call.serve c memcached state).saved) :
    Follows c start before (call.serve c memcached state).top
      (Fallible.final ((call.code memcached).onCourse course)) := by
  unfold State.saved at hc
  rw [Call.top_serve] at hc ⊢
  exact ((call.code memcached).simulates_onCourse.same state.top course h hc).2

theorem Follows.serveAll (h : Follows c start before state.top course) (memcached : EasyMemcached)
    (calls : List Call) (hc : NoCollision c (Call.serveAll c memcached calls state).saved) :
    Follows c start before (Call.serveAll c memcached calls state).top
      (Call.courseAll memcached calls course) := by
  induction calls generalizing state course with
  | nil => exact h
  | cons call calls ih =>
      have hgrow := (Call.stable_serveAll (c := c) memcached calls).forward
        (call.serve c memcached state)
      exact ih (h.serve memcached call (hc.mono hgrow.1.subset)) hc

end Courses

namespace Controller

open State

variable {c : Crypto}

/-! ## The course of a transaction -/

/-- What the contents run through until the request is sent. -/
def prepareCourse (tx : CoreTransaction) (state : State) : Course :=
  match tx with
  | .normal _ sender nonce =>
      Fallible.final ((prepareCode sender nonce).onCourse ⟨state.contents, []⟩)
  | .event _ _ => ⟨state.contents, []⟩

variable (c) in
/-- What the contents run through in the body of the `try`. -/
def course (memcached : EasyMemcached) (handling : Handling) (tx : CoreTransaction)
    (state : State) : Course :=
  match prepare c tx state with
  | .ok _ _ =>
      Call.courseAll { memcached with mode := .readWrite } handling.calls (prepareCourse tx state)
  | .error _ _ => prepareCourse tx state

theorem follows_prepare (tx : CoreTransaction) {state : State}
    (hrep : Represents c state.top state.contents)
    (hc : NoCollision c (Fallible.final (prepare c tx state)).saved) :
    Follows c state.top state.contents (Fallible.final (prepare c tx state)).top
      (prepareCourse tx state) := by
  cases tx with
  | normal hash sender nonce =>
      have htop := ((matches_prepare c hash sender nonce _).same state state.top ⟨rfl, rfl⟩ trivial).2.1
      unfold State.saved at hc
      rw [htop] at hc ⊢
      exact ((prepareCode sender nonce).simulates_onCourse.same state.top _ hrep.follows hc).2
  | event hash nonce =>
      -- only the nonce in the meta data is written
      have htop : (Fallible.final (prepare c (.event hash nonce) state)).top = state.top := by
        refine Fallible.Respects.bind (R := .constant State.top) .get (fun before => ?_) state
        have hnonce : Fallible.Respects (.constant State.top) incrementEventNonce := by
          refine Fallible.Respects.get.bind fun before => ?_
          simp only
          cases UInt64.serialize (before.metaState.eventNonce + 1) with
          | ok bytes => exact fun _ => rfl
          | error e => exact fun _ => rfl
        simp only
        split
        · exact (Fallible.Respects.throw _).bind fun _ => hnonce
        · exact hnonce
      rw [htop]
      exact hrep.follows

/-- The trie takes the course of the transaction. -/
theorem follows_action (header : BlockHeader) (memcached : EasyMemcached) (handling : Handling)
    (tx : CoreTransaction) {state : State} (hrep : Represents c state.top state.contents)
    (hc : NoCollision c (Fallible.final (action c header memcached handling tx state)).saved) :
    Follows c state.top state.contents
      (Fallible.final (action c header memcached handling tx state)).top
      (course c memcached handling tx state) := by
  rw [action_eq] at hc ⊢
  unfold course
  cases hprepare : prepare c tx state with
  | error e state' =>
      have hfollows := follows_prepare tx hrep
      rw [Fallible.bind_error hprepare] at hc ⊢
      rw [hprepare] at hfollows
      exact hfollows hc
  | ok _ state' =>
      have hfollows := follows_prepare tx hrep
      rw [Fallible.bind_ok hprepare] at hc ⊢
      rw [hprepare] at hfollows
      have hafter : (Fallible.final ((handle c memcached handling >>= fun res =>
          finish header res tx) state')).top = (Fallible.final (handle c memcached handling state')).top :=
        Fallible.Respects.final_bind (fun res => top_finish header res tx) state'
      have hgrow := (Call.stable_serveAll (c := c) { memcached with mode := .readWrite }
        handling.calls).forward state'
      unfold State.saved at hc
      rw [hafter, final_handle] at hc ⊢
      exact (hfollows (hc.mono hgrow.1.subset)).serveAll _ handling.calls hc

/-! ## The condition -/

variable (c) in
/-- The request is sent: the nonce is the next one, and what goes before could be written. -/
def Asked (tx : CoreTransaction) (state : State) : Prop := ∃ state', prepare c tx state = .ok () state'

/-- What a transaction that was sent leaves as the next validator set. -/
theorem action_validators (header : BlockHeader) (memcached : EasyMemcached) (handling : Handling)
    {tx : CoreTransaction} {state : State} (h : Asked c tx state) :
    (Fallible.final (action c header memcached handling tx state)).metaState.nextValidatorSet =
      (Call.lastValidators handling.calls).getD state.metaState.nextValidatorSet := by
  rcases h with ⟨state', hprepare⟩
  have hbefore : state'.metaState.nextValidatorSet = state.metaState.nextValidatorSet := by
    have hquiet := (quiet_prepare (c := c) tx).validators state
    rwa [hprepare] at hquiet
  have hafter := Fallible.Respects.final_bind (x := handle c memcached handling)
    (fun res => (quiet_finish (c := c) header res tx).validators) state'
  rw [action_eq, Fallible.bind_ok hprepare]
  calc
    _ = (Fallible.final (handle c memcached handling state')).metaState.nextValidatorSet := hafter
    _ = (Call.lastValidators handling.calls).getD state'.metaState.nextValidatorSet := by
          rw [final_handle, Call.serveAll_validators]
    _ = _ := by rw [hbefore]

/-- A transaction that was not sent leaves the next validator set alone. -/
theorem action_validators_of_not_asked (header : BlockHeader) (memcached : EasyMemcached)
    (handling : Handling) {tx : CoreTransaction} {state : State} (h : ¬ Asked c tx state) :
    (Fallible.final (action c header memcached handling tx state)).metaState.nextValidatorSet =
      state.metaState.nextValidatorSet := by
  have hquiet := (quiet_prepare (c := c) tx).validators state
  cases hprepare : prepare c tx state with
  | ok _ state' => exact absurd ⟨state', hprepare⟩ h
  | error e state' =>
      rw [action_eq, Fallible.bind_error hprepare]
      rwa [hprepare] at hquiet

/-- The accounts, the keys of the application and the next validator set are the same. -/
structure Unaffected (before after : State) : Prop where
  account : ∀ address, Fallible.outcome (getAccount address after) =
    Fallible.outcome (getAccount address before)
  accountEntry : ∀ address : Address,
    Fallible.outcome (onTop (MerklePatriciaTrie.get address.buffer) after) =
      Fallible.outcome (onTop (MerklePatriciaTrie.get address.buffer) before)
  app : ∀ key, Fallible.outcome (appGet key after) = Fallible.outcome (appGet key before)
  validators : after.metaState.nextValidatorSet = before.metaState.nextValidatorSet

/-- A call that changes neither the contents nor the next validator set. -/
def Idle (memcached : EasyMemcached) (state : State) (call : Call) : Prop :=
  Fallible.final ((call.code memcached).onContents state.contents) = state.contents ∧
    ∀ set ∈ call.validators, set = state.metaState.nextValidatorSet

variable (c) in
/-- The condition under which a failed transaction leaves nothing behind. If the application was asked,
the last validator set it has put, if any, is the one that was there before. What the contents run
through keeps the labels of the nodes that were there before. And the calls that are done only after
the response change nothing. -/
structure Recoverable (memcached : EasyMemcached) (handling : Handling) (late : List Call)
    (tx : CoreTransaction) (state : State) : Prop where
  validators : Asked c tx state → ∀ set, Call.lastValidators handling.calls = some set →
    set = state.metaState.nextValidatorSet
  labels : KeepsLabels state.contents (course c memcached handling tx state).written
  idle : ∀ call ∈ late, Idle { memcached with mode := .readWrite } state call

section Contents

variable {state after : State}

theorem represents_contents (h : state.Sound c) : Represents c state.top state.contents := by
  rcases h.represents with ⟨contents, hrep⟩
  rwa [hrep.contents]

/-- The keys of the framework are all there is. -/
theorem contents_of_not_stateKey (h : state.Sound c) {key : Bytes} (hkey : ¬ IsStateKey key) :
    state.contents key = none := by
  rcases h with ⟨t, ht, hkeys⟩
  have hrep : Represents c state.top fun key => (t.lookup (Key.bufferToKey key)).map Content.value :=
    ⟨t, ht, fun _ => rfl⟩
  rw [hrep.contents, Option.map_eq_none_iff, Option.eq_none_iff_forall_ne_some]
  intro content hcontent
  have hnibbles : Key.bufferToKey content.key = Key.bufferToKey key := ht.located _ _ hcontent
  refine hkey ?_
  rw [← Key.bufferToKey_injective hnibbles]
  exact hkeys content (Patricia.mem_contents.mpr ⟨_, hcontent⟩)

theorem unaffected_iff (h : state.Sound c) (h' : after.Sound c) :
    Unaffected state after ↔ after.contents = state.contents ∧
      after.metaState.nextValidatorSet = state.metaState.nextValidatorSet := by
  have hrep := represents_contents h
  have hrep' := represents_contents h'
  constructor
  · intro hunaffected
    refine ⟨funext fun key => ?_, hunaffected.validators⟩
    have hread : ∀ key, Fallible.outcome (onTop (MerklePatriciaTrie.get key) after) =
        Fallible.outcome (onTop (MerklePatriciaTrie.get key) state) →
        after.contents key = state.contents key := by
      intro key hsame
      rw [outcome_get_top hrep, outcome_get_top hrep'] at hsame
      exact Except.ok.inj hsame
    by_cases hkey : IsStateKey key
    · -- an entry belongs to an account or to the application
      rcases hkey with hsize | ⟨rest, rfl⟩
      · exact hread key (hunaffected.accountEntry ⟨key, hsize⟩)
      · exact hread _ (hunaffected.app rest)
    · rw [contents_of_not_stateKey h hkey, contents_of_not_stateKey h' hkey]
  · rintro ⟨hcontents, hvalidators⟩
    have hread : ∀ key, Fallible.outcome (onTop (MerklePatriciaTrie.get key) after) =
        Fallible.outcome (onTop (MerklePatriciaTrie.get key) state) := by
      intro key
      rw [outcome_get_top hrep, outcome_get_top hrep', hcontents]
    refine ⟨?_, fun address => hread address.buffer, fun key => hread (appKey key), hvalidators⟩
    intro address
    rw [outcome_getAccount, outcome_getAccount, hread]

/-- Calls change nothing, whichever of them are done, exactly when each of them changes nothing. -/
theorem unaffected_serveAll_iff {memcached : EasyMemcached} {late : List Call} (h : state.Sound c)
    (h' : after.Sound c) (hcontents : after.contents = state.contents)
    (hvalidators : after.metaState.nextValidatorSet = state.metaState.nextValidatorSet)
    (hc : NoCollision c (Call.serveAll c memcached late after).saved) :
    (∀ done, done <+: late → Unaffected state (Call.serveAll c memcached done after)) ↔
      ∀ call ∈ late, Idle memcached state call := by
  induction late generalizing after with
  | nil =>
      refine ⟨fun _ _ hmem => absurd hmem (List.not_mem_nil), ?_⟩
      intro _ done hdone
      rw [List.prefix_nil.mp hdone]
      exact (unaffected_iff h h').mpr ⟨hcontents, hvalidators⟩
  | cons call calls ih =>
      have hgrow := (Call.stable_serveAll (c := c) memcached calls).forward
        (call.serve c memcached after)
      have hc' : NoCollision c (call.serve c memcached after).saved := hc.mono hgrow.1.subset
      have hserved : (call.serve c memcached after).Sound c :=
        (Call.stable_run memcached call).sound after h' hc'
      have hafter : (call.serve c memcached after).contents =
          Fallible.final ((call.code memcached).onContents state.contents) := by
        rw [← hcontents]
        exact (represents_serve (represents_contents h') memcached call hc').contents
      have hset := call.serve_validators (c := c) memcached after
      rw [hvalidators] at hset
      -- the first call is idle exactly when it changes nothing
      have hfirst : Unaffected state (call.serve c memcached after) ↔ Idle memcached state call := by
        rw [unaffected_iff h hserved, hafter, hset, Idle]
        cases call.validators with
        | none => simp
        | some set => simp
      constructor
      · intro hunaffected
        have hidle := hfirst.mp (hunaffected [call] ((List.prefix_cons_inj call).mpr List.nil_prefix))
        have hsame := (unaffected_iff h hserved).mp (hfirst.mpr hidle)
        have hrest := (ih hserved hsame.1 hsame.2 hc).mp fun done hdone =>
          hunaffected (call :: done) ((List.prefix_cons_inj call).mpr hdone)
        intro call' hmem
        rcases List.mem_cons.mp hmem with rfl | hmem
        · exact hidle
        · exact hrest call' hmem
      · intro hidle done hdone
        rcases List.prefix_cons_iff.mp hdone with rfl | ⟨rest, rfl, hrest⟩
        · exact (unaffected_iff h h').mpr ⟨hcontents, hvalidators⟩
        · have hsame := (unaffected_iff h hserved).mp
            (hfirst.mpr (hidle call List.mem_cons_self))
          exact (ih hserved hsame.1 hsame.2 hc).mpr
            (fun call' hmem => hidle call' (List.mem_cons_of_mem _ hmem)) rest hrest

end Contents

/-! ## The catch branch -/

section CatchBranch

variable {header : BlockHeader} {tx : CoreTransaction} {handling : Handling} {memcached : EasyMemcached}
  {state mid : State} {e : Error}

/-- The validators are no entry of the trie: what the calls set stays set. -/
theorem validators_rolledBack_iff
    (haction : action c header memcached handling tx state = .error e mid) :
    (rolledBack state mid).metaState.nextValidatorSet = state.metaState.nextValidatorSet ↔
      (Asked c tx state → ∀ set, Call.lastValidators handling.calls = some set →
        set = state.metaState.nextValidatorSet) := by
  by_cases hasked : Asked c tx state
  · have hset := action_validators header memcached handling hasked
    rw [haction] at hset
    have hset' : (rolledBack state mid).metaState.nextValidatorSet = _ := hset
    rw [hset']
    cases Call.lastValidators handling.calls with
    | none => simp
    | some set => simp [hasked]
  · have hset := action_validators_of_not_asked header memcached handling hasked
    rw [haction] at hset
    exact iff_of_true hset fun h => absurd h hasked

/-- With its nodes still there, the old version is sound again, with the same contents. -/
theorem sound_rolledBack (hsound : state.Sound c)
    (haction : action c header memcached handling tx state = .error e mid)
    (hready : mid.top.isReady = true) (hc : NoCollision c mid.saved)
    (hretained : MerklePatriciaTrie.Retained state.top mid.top) :
    (rolledBack state mid).Sound c ∧ (rolledBack state mid).contents = state.contents := by
  have hstable := stable_action (c := c) header memcached handling tx
  have hforward := hstable.forward state
  have hlater := hstable.sound state hsound
  rw [haction] at hforward hlater
  rcases hlater hc with ⟨t', ht', -⟩
  rcases hsound with ⟨t, ht, hkeys⟩
  have hback : (rolledBack state mid).top.Sound c t :=
    hretained.sound ht hready ht'.consistent hforward.1.subset
  refine ⟨⟨t, hback, hkeys⟩, ?_⟩
  have hrep : Represents c state.top fun key => (t.lookup (Key.bufferToKey key)).map Content.value :=
    ⟨t, ht, fun _ => rfl⟩
  have hrep' : Represents c (rolledBack state mid).top fun key =>
      (t.lookup (Key.bufferToKey key)).map Content.value := ⟨t, hback, fun _ => rfl⟩
  rw [hrep.contents, hrep'.contents]

/-- A failed transaction that has changed nothing has left the nodes of the old root as they were. -/
theorem Unaffected.retained (h : Unaffected state (rolledBack state mid)) (hsound : state.Sound c)
    (haction : action c header memcached handling tx state = .error e mid)
    (hc : NoCollision c mid.saved) : MerklePatriciaTrie.Retained state.top mid.top := by
  have hstable := stable_action (c := c) header memcached handling tx
  have hforward := hstable.forward state
  have hlater := hstable.sound state hsound
  rw [haction] at hforward hlater
  rcases hsound with ⟨t, ht, hkeys⟩
  rcases hlater hc with ⟨t', ht', -⟩
  refine ht.retained_of_get ht'.isReady ht'.consistent hforward.1.subset ?_
  intro content hmem
  have hentry : Fallible.outcome (onTop (MerklePatriciaTrie.get content.key)
      (rolledBack state mid)) = Fallible.outcome (onTop (MerklePatriciaTrie.get content.key) state) := by
    rcases hkeys content hmem with hsize | ⟨key, hkey⟩
    · exact h.accountEntry ⟨content.key, hsize⟩
    · rw [← hkey]
      exact h.app key
  rw [outcome_onTop, outcome_onTop] at hentry
  exact hentry

end CatchBranch

/-- The application puts another validator set and then answers with an error. -/
def putAndFail : Handling :=
  ⟨[.putValidators [(some ⟨List.replicate 20 2, by simp⟩, .number 5)]], .ok ⟨500, "error", [], []⟩⟩

variable (c) in
/-- Controllers that a run leads to. A failed transaction of the run has met the condition, with the
calls that come late; other calls can come at any time. -/
inductive Reachable : Controller → Prop
  | ready {timestamp : Nat} {initialValidatorSet : ValidatorSet} {state : State}
      {memcachedImpl : EasyMemcached} :
      State.ready c timestamp initialValidatorSet (State.new c) = .ok () state →
        Reachable ⟨state, memcachedImpl⟩
  | execute {header : BlockHeader} {tx : CoreTransaction} {handling : Handling} {late : List Call}
      {valid : Bool} {controller controller' : Controller} : Reachable controller →
        executeTransaction c header tx handling controller = .ok valid controller' →
        (valid = false →
          Recoverable c controller.memcachedImpl handling late tx controller.state) →
        Reachable controller'
  | call {call : Call} {memcached : EasyMemcached} {controller : Controller} :
      Reachable controller →
        Reachable { controller with state := call.serve c memcached controller.state }
  | newHeight {blockTimestamp : Nat} {validTxHashes : List Hash} {eventExists : Bool}
      {eventTxRoot : Hash} {controller : Controller} {state : State} : Reachable controller →
        State.newHeight blockTimestamp validTxHashes eventExists eventTxRoot controller.state =
          .ok () state →
        Reachable { controller with state }

/-- In every run the trie stays sound, unless saved nodes collide. -/
theorem Reachable.sound {controller : Controller} (h : Reachable c controller)
    (hc : NoCollision c controller.state.saved) : controller.state.Sound c := by
  induction h with
  | @ready timestamp initialValidatorSet state memcachedImpl hready =>
      have hsound := ready_sound (c := c) timestamp initialValidatorSet
      rw [hready] at hsound
      exact hsound
  | @execute header tx handling late valid controller controller' _ hexecute hrecoverable ih =>
      have hstable := stable_action (c := c) header controller.memcachedImpl handling tx
      have hforward := hstable.forward controller.state
      have hsound := hstable.sound controller.state
      cases valid with
      | true =>
          have haction := executeTransaction_true hexecute
          rw [haction] at hforward hsound
          exact hsound (ih (hc.mono hforward.1.subset)) hc
      | false =>
          -- the contents are those of before, and the nodes of their tree are still in the store
          rcases executeTransaction_false hexecute with ⟨e, mid, haction, hready, hstate⟩
          rw [haction] at hforward
          rw [hstate] at hc ⊢
          have hbefore := ih (hc.mono hforward.1.subset)
          have hfollows := follows_action header controller.memcachedImpl handling tx
            (represents_contents hbefore)
          rw [haction] at hfollows
          exact (sound_rolledBack hbefore haction hready hc
            ((hfollows hc).retained_iff.mpr (hrecoverable rfl).labels)).1
  | @call call memcached controller _ ih =>
      have hstable := Call.stable_run (c := c) memcached call
      exact hstable.sound controller.state
        (ih (hc.mono (hstable.forward controller.state).1.subset)) hc
  | @newHeight blockTimestamp validTxHashes eventExists eventTxRoot controller state _ hnew ih =>
      have hquiet := quiet_newHeight (c := c) blockTimestamp validTxHashes eventExists eventTxRoot
      have hforward := hquiet.forward controller.state
      have hsound := hquiet.sound controller.state
      rw [hnew] at hforward hsound
      exact hsound (ih (hc.mono hforward.1.subset)) hc

end Controller

end EasyFramework
end UniqysKit
