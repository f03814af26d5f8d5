import UniqysKit.Blockchain.Block
import UniqysKit.Library.Runs

/-!
# The transaction pool

`transaction-pool.ts` of `packages/chain-core`.  An event is the code between two awaits: a call
begins, or the validator has answered one that waits for it.  What is selected or sent on to other
nodes does not change the pool and is left out.

An `add` that waits for the validator looks at the pool again before it puts its transaction there, but
not at what has been executed in the meantime.
-/

namespace UniqysKit
namespace ChainCore

open Library

/-- A call of `add` or `update`, when it begins. -/
inductive PoolCall
  | add (tx : Transaction)
  | update (executed : List Transaction)

/-- The pool, the calls of `add` that wait for the validator and the transactions that `update` has
asked it about. `calls` are all calls that have begun. -/
structure TransactionPool where
  maxPooledTransactions : Nat
  pool : List Transaction
  adding : List Transaction
  checking : List Transaction
  calls : List PoolCall

/-- The code between two awaits. An answer is `none` if the validator rejects its promise. -/
inductive PoolEvent
  | add (tx : Transaction)
  | update (executed : List Transaction)
  /-- The validator has answered an `add`. -/
  | validated (i : Nat) (answer : Option Bool)
  /-- The validator has answered an `update`. -/
  | checked (i : Nat) (answer : Option Bool)

namespace TransactionPool

variable (c : Crypto)

def new (maxPooledTransactions : Nat) : TransactionPool := ⟨maxPooledTransactions, [], [], [], []⟩

/-- The keys of the pool. -/
def keys (txs : List Transaction) : List Hash := txs.map (Transaction.hash c)

def has (key : Hash) (state : TransactionPool) : Bool := key ∈ keys c state.pool

def canAdd (key : Hash) (state : TransactionPool) : Bool :=
  if state.has c key then false
  else if state.pool.length ≥ state.maxPooledTransactions then false
  else true

/-- The pool without some keys. -/
def delete (removed : List Hash) (state : TransactionPool) : TransactionPool :=
  { state with pool := state.pool.filter fun tx => tx.hash c ∉ removed }

/-- `add` up to its `await`. -/
def add (tx : Transaction) (state : TransactionPool) : TransactionPool :=
  let state := { state with calls := state.calls ++ [PoolCall.add tx] }
  if state.canAdd c (tx.hash c) then { state with adding := state.adding ++ [tx] } else state

/-- `add` from its `await` on. -/
def validated (i : Nat) (answer : Option Bool) (state : TransactionPool) : TransactionPool :=
  match state.adding[i]? with
  | some tx =>
      let state := { state with adding := state.adding.eraseIdx i }
      if answer = some true then
        -- re-check
        if state.canAdd c (tx.hash c) then { state with pool := state.pool ++ [tx] } else state
      else state
  | none => state

/-- `update` up to its `await`. -/
def update (executed : List Transaction) (state : TransactionPool) : TransactionPool :=
  let state := { state with calls := state.calls ++ [PoolCall.update executed] }.delete c (keys c executed)
  { state with checking := state.checking ++ state.pool }

/-- What `update` does with one answer. -/
def checked (i : Nat) (answer : Option Bool) (state : TransactionPool) : TransactionPool :=
  match state.checking[i]? with
  | some tx =>
      let state := { state with checking := state.checking.eraseIdx i }
      if answer = some false then state.delete c [tx.hash c] else state
  | none => state

/-- An event that cannot happen does nothing. -/
def step (state : TransactionPool) : PoolEvent → TransactionPool
  | .add tx => state.add c tx
  | .update executed => state.update c executed
  | .validated i answer => state.validated c i answer
  | .checked i answer => state.checked c i answer

/-! ## Executed transactions -/

/-- An `update` has removed the key, and no `add` of it has begun after that. -/
def Executed (key : Hash) (calls : List PoolCall) : Prop :=
  ∃ before executed after, calls = before ++ PoolCall.update executed :: after ∧ key ∈ keys c executed ∧
    ∀ tx, PoolCall.add tx ∈ after → tx.hash c ≠ key

/-- No transaction of the pool has been executed and not been added again. -/
def LeftForGood (state : TransactionPool) : Prop :=
  ∀ tx ∈ state.pool, ¬ Executed c (tx.hash c) state.calls

/-- The event does not put a transaction into the pool that was executed while its `add` waited, and for
which no other `add` has begun since. -/
def Timely (state : TransactionPool) (event : PoolEvent) : Prop :=
  ∀ i, event = .validated i (some true) → ∀ tx ∈ state.adding[i]?, state.canAdd c (tx.hash c) →
    ¬ Executed c (tx.hash c) state.calls

section Executed

variable {c} {key : Hash} {calls : List PoolCall} {state : TransactionPool}

theorem executed_add_iff {tx : Transaction} :
    Executed c key (calls ++ [PoolCall.add tx]) ↔ Executed c key calls ∧ tx.hash c ≠ key := by
  constructor
  · rintro ⟨before, executed, after, hcalls, hmem, hlater⟩
    rcases List.eq_nil_or_concat after with rfl | ⟨after, last, rfl⟩
    · exact absurd (List.append_inj' hcalls rfl).2 (by simp)
    · rw [List.concat_eq_append, ← List.cons_append, ← List.append_assoc] at hcalls
      rcases List.append_inj' hcalls rfl with ⟨hinit, hlast⟩
      cases hlast
      exact ⟨⟨before, executed, after, hinit, hmem, fun other hother => hlater other (by simp [hother])⟩,
        hlater tx (by simp)⟩
  · rintro ⟨⟨before, executed, after, rfl, hmem, hlater⟩, hne⟩
    refine ⟨before, executed, after ++ [PoolCall.add tx], by simp, hmem, ?_⟩
    intro other hother
    rcases List.mem_append.mp hother with hold | hnew
    · exact hlater other hold
    · cases List.mem_singleton.mp hnew
      exact hne

theorem executed_update_iff {executed : List Transaction} :
    Executed c key (calls ++ [PoolCall.update executed]) ↔ Executed c key calls ∨ key ∈ keys c executed := by
  constructor
  · rintro ⟨before, others, after, hcalls, hmem, hlater⟩
    rcases List.eq_nil_or_concat after with rfl | ⟨after, last, rfl⟩
    · rcases List.append_inj' hcalls rfl with ⟨-, hlast⟩
      cases hlast
      exact .inr hmem
    · rw [List.concat_eq_append, ← List.cons_append, ← List.append_assoc] at hcalls
      rcases List.append_inj' hcalls rfl with ⟨hinit, -⟩
      exact .inl ⟨before, others, after, hinit, hmem, fun other hother => hlater other (by simp [hother])⟩
  · rintro (⟨before, others, after, rfl, hmem, hlater⟩ | hmem)
    · refine ⟨before, others, after ++ [PoolCall.update executed], by simp, hmem, ?_⟩
      intro other hother
      rcases List.mem_append.mp hother with hold | hnew
      · exact hlater other hold
      · cases List.mem_singleton.mp hnew
    · exact ⟨calls, executed, [], rfl, hmem, fun _ h => absurd h List.not_mem_nil⟩

/-! ### What an event does to the pool and the calls -/

/-- A call of `add` leaves the pool alone for now. -/
theorem add_eq (tx : Transaction) :
    (state.add c tx).pool = state.pool ∧ (state.add c tx).calls = state.calls ++ [PoolCall.add tx] := by
  simp only [add]
  split
  · exact ⟨rfl, rfl⟩
  · exact ⟨rfl, rfl⟩

theorem validated_cases (i : Nat) (answer : Option Bool) :
    (state.validated c i answer).calls = state.calls ∧
      ((state.validated c i answer).pool = state.pool ∨
        ∃ tx ∈ state.adding[i]?, answer = some true ∧ state.canAdd c (tx.hash c) ∧
          (state.validated c i answer).pool = state.pool ++ [tx]) := by
  unfold validated
  split
  · rename_i tx htx
    simp only
    split
    · rename_i hanswer
      split
      · rename_i hadd
        exact ⟨rfl, .inr ⟨tx, htx, hanswer, hadd, rfl⟩⟩
      · exact ⟨rfl, .inl rfl⟩
    · exact ⟨rfl, .inl rfl⟩
  · exact ⟨rfl, .inl rfl⟩

/-- `update` can only take transactions out. -/
theorem checked_sublist (i : Nat) (answer : Option Bool) :
    (state.checked c i answer).calls = state.calls ∧
      (state.checked c i answer).pool.Sublist state.pool := by
  unfold checked
  split
  · simp only
    split
    · exact ⟨rfl, List.filter_sublist⟩
    · exact ⟨rfl, List.Sublist.refl _⟩
  · exact ⟨rfl, List.Sublist.refl _⟩

theorem leftForGood_new (maxPooledTransactions : Nat) : (new maxPooledTransactions).LeftForGood c :=
  fun _ h => absurd h List.not_mem_nil

/-- What a timely event keeps. -/
theorem LeftForGood.step (h : state.LeftForGood c) {event : PoolEvent} (htimely : state.Timely c event) :
    (state.step c event).LeftForGood c := by
  cases event with
  | add tx =>
      rcases @add_eq c state tx with ⟨hpool, hcalls⟩
      intro other hother hexecuted
      rw [TransactionPool.step, hpool] at hother
      rw [TransactionPool.step, hcalls] at hexecuted
      exact h other hother (executed_add_iff.mp hexecuted).1
  | update executed =>
      intro other hother hexecuted
      rcases List.mem_filter.mp hother with ⟨hmem, hnot⟩
      rcases executed_update_iff.mp hexecuted with hold | hnew
      · exact h other hmem hold
      · -- what this call executes it takes out of the pool
        exact of_decide_eq_true hnot hnew
  | validated i answer =>
      rcases @validated_cases c state i answer with ⟨hcalls, hpool⟩
      intro other hother hexecuted
      rw [TransactionPool.step, hcalls] at hexecuted
      rw [TransactionPool.step] at hother
      rcases hpool with hpool | ⟨tx, htx, rfl, hadd, hpool⟩
      · rw [hpool] at hother
        exact h other hother hexecuted
      · rw [hpool] at hother
        rcases List.mem_append.mp hother with hold | hnew
        · exact h other hold hexecuted
        · -- the transaction that comes in now
          cases List.mem_singleton.mp hnew
          exact htimely i rfl other htx hadd hexecuted
  | checked i answer =>
      rcases @checked_sublist c state i answer with ⟨hcalls, hsub⟩
      intro other hother hexecuted
      rw [TransactionPool.step, hcalls] at hexecuted
      exact h other (hsub.subset hother) hexecuted

/-- An event that is not timely brings an executed transaction back. -/
theorem timely_of_leftForGood {event : PoolEvent} (h : (state.step c event).LeftForGood c) :
    state.Timely c event := by
  rintro i rfl tx htx hadd hexecuted
  have hpool : (state.validated c i (some true)).pool = state.pool ++ [tx] ∧
      (state.validated c i (some true)).calls = state.calls := by
    have hget : state.adding[i]? = some tx := htx
    have hcan : canAdd c (tx.hash c) { state with adding := state.adding.eraseIdx i } = true := hadd
    simp only [validated, hget, if_true, hcan, and_self]
  refine h tx ?_ ?_
  · rw [TransactionPool.step, hpool.1]
    exact List.mem_append_right _ (List.mem_singleton_self tx)
  · rw [TransactionPool.step, hpool.2]
    exact hexecuted

end Executed

/-- Executed transactions are gone for good in exactly those runs in which no `add` ends that was in
progress when its transaction was executed. -/
theorem leftForGood_iff_timely (maxPooledTransactions : Nat) (events : List PoolEvent) :
    Throughout (step c) (new maxPooledTransactions) events (LeftForGood c) ↔
      Along (step c) (new maxPooledTransactions) events (Timely c) := by
  constructor
  · intro h before event after hevents
    have hnext := h (before ++ [event]) after (by rw [hevents, List.append_assoc]; rfl)
    rw [List.foldl_append] at hnext
    exact timely_of_leftForGood hnext
  · intro h
    exact h.throughout (leftForGood_new _) fun state event hleft htimely => hleft.step htimely

/-- A transaction without data. -/
def sampleTx : Transaction := ⟨0, [], Transaction.zero_lt, by decide⟩

/-- It is executed while the validator looks at it. -/
def sampleEvents : List PoolEvent := [.add sampleTx, .update [sampleTx], .validated 0 (some true)]

theorem not_leftForGood :
    ¬ ∀ maxPooledTransactions events,
      Throughout (step .transparent) (new maxPooledTransactions) events (LeftForGood .transparent) := by
  intro h
  refine h 1000 sampleEvents sampleEvents [] (List.append_nil _).symm sampleTx ?_ ?_
  · decide +kernel
  · exact ⟨[.add sampleTx], [sampleTx], [], rfl, List.mem_singleton_self _,
      fun _ h => absurd h List.not_mem_nil⟩

end TransactionPool

end ChainCore
end UniqysKit
