import UniqysKit.ChainCore.TransactionPool
import UniqysKit.Library.EntryMap

/-!
# The calls of the transaction pool

`transaction-pool.ts` once more, with the map by keys, with each call of `add` for itself, and with the
transactions that were handed to `propagateTransaction`.  Answers of the validator name the call they
are for.  What is sent to whom is left out.

What a call has put into the pool is read off the pools before and after the events (`putBy`), and
`pool_bounded` compares it with what the call has propagated.  `Simulates` says that the pool of
`TransactionPool` is what this one has in its map.
-/

namespace UniqysKit
namespace ChainCore

open Library

/-- A call of `add`. -/
structure AddCall where
  tx : Transaction
  waiting : Bool

/-- The pool, the calls of `add` in the order in which they began, the transactions that `update` has
asked the validator about, and those that were propagated, each with the number of the call. -/
structure PoolCalls where
  maxPooledTransactions : Nat
  pool : EntryMap Hash Transaction
  adds : List AddCall
  checking : List Transaction
  propagated : List (Nat × Transaction)

/-- The code between two awaits. -/
inductive CallEvent
  | add (tx : Transaction)
  | update (executed : List Transaction)
  /-- The validator has answered a call of `add`. -/
  | validated (number : Nat) (answer : Option Bool)
  /-- The validator has answered an `update`. -/
  | checked (i : Nat) (answer : Option Bool)

namespace PoolCalls

variable (c : Crypto)

def new (maxPooledTransactions : Nat) : PoolCalls := 
  ⟨maxPooledTransactions, .empty, [], [], []⟩

def has (key : Hash) (state : PoolCalls) : Bool := (state.pool.get key).isSome

def canAdd (key : Hash) (state : PoolCalls) : Bool :=
  if state.has key then false
  else if state.pool.entries.length ≥ state.maxPooledTransactions then false
  else true

/-- `add` up to its `await`. -/
def add (tx : Transaction) (state : PoolCalls) : PoolCalls :=
  { state with adds := state.adds ++ [⟨tx, state.canAdd (tx.hash c)⟩] }

/-- `propagateTransaction`. -/
def propagateTransaction (number : Nat) (tx : Transaction) (state : PoolCalls) : PoolCalls :=
  { state with propagated := state.propagated ++ [(number, tx)] }

/-- `add` from its `await` on. -/
def validated (number : Nat) (answer : Option Bool) (state : PoolCalls) : PoolCalls :=
  match state.adds[number]? with
  | some call =>
      if call.waiting then
        let state := { state with adds := state.adds.set number { call with waiting := false } }
        let key := call.tx.hash c
        -- re-check
        if answer = some true ∧ state.canAdd key then
          { state with pool := state.pool.set key call.tx }.propagateTransaction number call.tx
        else state
      else state
  | none => state

/-- The re-check is about the pool, which the end of the wait leaves as it is. -/
theorem validated_eq {number : Nat} {answer : Option Bool} {state : PoolCalls} {call : AddCall}
    (hcall : state.adds[number]? = some call) (hwaiting : call.waiting = true) :
    state.validated c number answer =
      if answer = some true ∧ state.canAdd (call.tx.hash c) then
        { state with
          pool := state.pool.set (call.tx.hash c) call.tx
          adds := state.adds.set number { call with waiting := false }
          propagated := state.propagated ++ [(number, call.tx)] }
      else { state with adds := state.adds.set number { call with waiting := false } } := by
  rw [validated, hcall]
  simp only [hwaiting, if_true]
  rfl

/-- `update` up to its `await`. -/
def update (executed : List Transaction) (state : PoolCalls) : PoolCalls :=
  let pool := executed.foldl (fun pool tx => pool.delete (tx.hash c)) state.pool
  { state with pool, checking := state.checking ++ pool.values }

/-- What `update` does with one answer. -/
def checked (i : Nat) (answer : Option Bool) (state : PoolCalls) : PoolCalls :=
  match state.checking[i]? with
  | some tx =>
      let state := { state with checking := state.checking.eraseIdx i }
      if answer = some false then { state with pool := state.pool.delete (tx.hash c) } else state
  | none => state

/-- An event that cannot happen does nothing. -/
def step (state : PoolCalls) : CallEvent → PoolCalls
  | .add tx => state.add c tx
  | .update executed => state.update c executed
  | .validated number answer => state.validated c number answer
  | .checked i answer => state.checked c i answer

/-! ## What the pool is for -/

/-- The transactions of the calls of `add`, in their order. -/
def added (events : List CallEvent) : List Transaction :=
  events.filterMap fun event =>
    match event with
    | .add tx => some tx
    | _ => none

/-- A call of `add` began, and this is what has happened since. -/
def Began (events : List CallEvent) (number : Nat) (tx : Transaction) (since : List CallEvent) : Prop :=
  ∃ before, events = before ++ .add tx :: since ∧ number = (added before).length

/-- The validator has accepted the transaction for a call of `add` of it, which had begun and had no
answer before. -/
def Accepted (events : List CallEvent) (tx : Transaction) : Prop :=
  ∃ before after number since, events = before ++ .validated number (some true) :: after ∧
    Began before number tx since ∧ ∀ answer, .validated number answer ∉ since

/-- The call of `add` that the code of an event belongs to. -/
def caller (state : PoolCalls) : CallEvent → Option Nat
  | .add _ => some state.adds.length
  | .validated number _ => some number
  | .update _ => none
  | .checked _ _ => none

/-- The entries that are in the pool after the event and were not there before. -/
def entered (state : PoolCalls) (event : CallEvent) : List (Hash × Transaction) :=
  (state.step c event).pool.entries.filter fun entry => entry ∉ state.pool.entries

/-- The entries that come into the pool by the code of a call, in a run from the state. -/
def putBy (number : Nat) (state : PoolCalls) : List CallEvent → List (Hash × Transaction)
  | [] => []
  | event :: events =>
      (if state.caller event = some number then state.entered c event else []) ++
        putBy number (state.step c event) events

/-- What a call has propagated. -/
def propagatedBy (number : Nat) (state : PoolCalls) : List Transaction :=
  (state.propagated.filter fun entry => entry.1 = number).map Prod.snd

/-- The pool after these events. -/
structure Bounded (maxPooledTransactions : Nat) (events : List CallEvent) (state : PoolCalls) :
    Prop where
  size : state.pool.entries.length ≤ maxPooledTransactions
  keyed : ∀ entry ∈ state.pool.entries, entry.1 = entry.2.hash c
  accepted : ∀ entry ∈ state.pool.entries, Accepted events entry.2
  put : ∀ entry ∈ state.pool.entries, ∃ number, entry ∈ putBy c number (new maxPooledTransactions) events
  once : ∀ number, (putBy c number (new maxPooledTransactions) events).length ≤ 1
  propagated : ∀ number, state.propagatedBy number =
    (putBy c number (new maxPooledTransactions) events).map Prod.snd

/-! ## The calls -/

section Calls

variable {c} {events : List CallEvent} {event : CallEvent} {adds : List AddCall} {call : AddCall}
  {tx : Transaction} {number : Nat} {since : List CallEvent}

theorem Began.snoc (h : Began events number tx since) (event : CallEvent) :
    Began (events ++ [event]) number tx (since ++ [event]) := by
  rcases h with ⟨before, rfl, hnumber⟩
  exact ⟨before, by simp, hnumber⟩

theorem Accepted.snoc (h : Accepted events tx) (event : CallEvent) :
    Accepted (events ++ [event]) tx := by
  rcases h with ⟨before, after, number, since, rfl, hbegan⟩
  exact ⟨before, after ++ [event], number, since, by simp, hbegan⟩

/-- The calls are those that began, and one that waits has had no answer. -/
structure Known (events : List CallEvent) (adds : List AddCall) : Prop where
  length : adds.length = (added events).length
  began : ∀ number call, adds[number]? = some call → ∃ since, Began events number call.tx since ∧
    (call.waiting → ∀ answer, .validated number answer ∉ since)

theorem known_nil : Known [] [] := by
  refine ⟨rfl, ?_⟩
  intro number call hcall
  simp at hcall

theorem Known.push (h : Known events adds) (call : AddCall) :
    Known (events ++ [.add call.tx]) (adds ++ [call]) := by
  constructor
  · simp [added, h.length]
  · intro number other hother
    rw [List.getElem?_append] at hother
    split at hother
    · rcases h.began number other hother with ⟨since, hbegan, hwaits⟩
      refine ⟨since ++ [.add call.tx], hbegan.snoc _, ?_⟩
      intro hwaiting answer hmem
      rcases List.mem_append.mp hmem with hold | hnew
      · exact hwaits hwaiting answer hold
      · simp at hnew
    · -- the call that begins now
      rename_i hge
      rw [List.getElem?_singleton] at hother
      split at hother
      · cases hother
        refine ⟨[], ⟨events, rfl, ?_⟩, fun _ _ => List.not_mem_nil⟩
        rw [← h.length]
        omega
      · cases hother

/-- An event that is no answer to a call that waits. -/
theorem Known.snoc (h : Known events adds) (hadd : added [event] = [])
    (hanswer : ∀ number call, adds[number]? = some call → call.waiting →
      ∀ answer, event ≠ .validated number answer) : Known (events ++ [event]) adds := by
  constructor
  · rw [h.length, added, added, List.filterMap_append]
    rw [added] at hadd
    rw [hadd, List.append_nil]
  · intro number call hcall
    rcases h.began number call hcall with ⟨since, hbegan, hwaits⟩
    refine ⟨since ++ [event], hbegan.snoc event, ?_⟩
    intro hwaiting answer hmem
    rcases List.mem_append.mp hmem with hold | hnew
    · exact hwaits hwaiting answer hold
    · exact hanswer number call hcall hwaiting answer (List.mem_singleton.mp hnew).symm

/-- A call that does not wait any more. -/
theorem Known.set (h : Known events adds) (hcall : adds[number]? = some call) (call' : AddCall)
    (htx : call'.tx = call.tx) (hwaiting : call'.waiting = false) :
    Known events (adds.set number call') := by
  constructor
  · rw [List.length_set, h.length]
  · intro other found hfound
    by_cases hsame : number = other
    · subst hsame
      rw [List.getElem?_set_self (List.getElem?_eq_some_iff.mp hcall).1] at hfound
      cases hfound
      rcases h.began number call hcall with ⟨since, hbegan, -⟩
      refine ⟨since, by rwa [htx], ?_⟩
      intro hwaits
      rw [hwaiting] at hwaits
      cases hwaits
    · rw [List.getElem?_set_ne hsame] at hfound
      exact h.began other found hfound

end Calls

/-! ## What calls put into the pool -/

section Puts

variable {c} {state : PoolCalls} {event : CallEvent} {events : List CallEvent} {number : Nat}

theorem putBy_snoc : putBy c number state (events ++ [event]) =
    putBy c number state events ++
      if (events.foldl (step c) state).caller event = some number then
        (events.foldl (step c) state).entered c event
      else [] := by
  induction events generalizing state with
  | nil =>
      simp only [List.nil_append, putBy, List.append_nil, List.foldl_nil]
      rfl
  | cons first events ih =>
      simp only [List.cons_append, putBy, ih, List.append_assoc, List.foldl_cons]
      rfl

/-- Nothing comes into a pool of which entries are only taken out. -/
theorem entered_eq_nil (h : (state.step c event).pool.entries ⊆ state.pool.entries) :
    state.entered c event = [] := by
  refine List.filter_eq_nil_iff.mpr ?_
  intro entry hentry
  simp [h hentry]

theorem entered_eq_singleton {entry : Hash × Transaction} (hnew : entry ∉ state.pool.entries)
    (h : (state.step c event).pool.entries = state.pool.entries ++ [entry]) :
    state.entered c event = [entry] := by
  have hold : (state.pool.entries.filter fun entry => entry ∉ state.pool.entries) = [] := by
    refine List.filter_eq_nil_iff.mpr ?_
    intro other hother
    simp [hother]
  rw [entered, h, List.filter_append, hold, List.nil_append, List.filter_singleton]
  simp [hnew]

end Puts

/-! ## The invariant -/

section Invariant

variable {c} {maxPooledTransactions : Nat} {events : List CallEvent} {event : CallEvent}
  {state : PoolCalls}

/-- The invariant of a run: a call that waits, or has not begun, has put nothing into the pool. -/
structure Inv (c : Crypto) (maxPooledTransactions : Nat) (events : List CallEvent)
    (state : PoolCalls) : Prop where
  bounded : Bounded c maxPooledTransactions events state
  known : Known events state.adds
  bound : state.maxPooledTransactions = maxPooledTransactions
  run : state = events.foldl (step c) (new maxPooledTransactions)
  fresh : ∀ number, (∀ call ∈ state.adds[number]?, call.waiting) →
    putBy c number (new maxPooledTransactions) events = []

theorem inv_new : Inv c maxPooledTransactions [] (new maxPooledTransactions) := by
  refine ⟨⟨Nat.zero_le _, nofun, nofun, nofun, fun _ => Nat.zero_le _, fun _ => rfl⟩, known_nil, rfl,
    rfl, fun _ _ => rfl⟩

theorem canAdd_eq_true {key : Hash} : state.canAdd key ↔
    state.pool.get key = none ∧ state.pool.entries.length < state.maxPooledTransactions := by
  rw [canAdd, has]
  cases state.pool.get key with
  | none => simp
  | some tx => simp

theorem Inv.putBy_snoc (h : Inv c maxPooledTransactions events state) (number : Nat)
    (event : CallEvent) :
    putBy c number (new maxPooledTransactions) (events ++ [event]) =
      putBy c number (new maxPooledTransactions) events ++
        if state.caller event = some number then state.entered c event else [] := by
  rw [PoolCalls.putBy_snoc, ← h.run]

theorem Inv.run_snoc (h : Inv c maxPooledTransactions events state) :
    state.step c event = (events ++ [event]).foldl (step c) (new maxPooledTransactions) := by
  rw [List.foldl_append, ← h.run]
  rfl

/-- An event at which nothing comes into the pool. -/
theorem Inv.quiet (h : Inv c maxPooledTransactions events state)
    (hpool : (state.step c event).pool.entries.Sublist state.pool.entries)
    (hbound : (state.step c event).maxPooledTransactions = state.maxPooledTransactions)
    (hpropagated : (state.step c event).propagated = state.propagated)
    (hknown : Known (events ++ [event]) (state.step c event).adds)
    (hwaiting : ∀ number : Nat, (∀ call ∈ (state.step c event).adds[number]?, call.waiting) →
      ∀ call ∈ state.adds[number]?, call.waiting) :
    Inv c maxPooledTransactions (events ++ [event]) (state.step c event) := by
  have hbounded := h.bounded
  have hput : ∀ number, putBy c number (new maxPooledTransactions) (events ++ [event]) =
      putBy c number (new maxPooledTransactions) events := by
    intro number
    rw [h.putBy_snoc, entered_eq_nil hpool.subset, ite_self, List.append_nil]
  refine ⟨⟨hpool.length_le.trans hbounded.size, ?_, ?_, ?_, ?_, ?_⟩, hknown, hbound.trans h.bound,
    h.run_snoc, ?_⟩
  · intro entry hentry
    exact hbounded.keyed entry (hpool.subset hentry)
  · intro entry hentry
    exact (hbounded.accepted entry (hpool.subset hentry)).snoc event
  · intro entry hentry
    rcases hbounded.put entry (hpool.subset hentry) with ⟨number, hnumber⟩
    exact ⟨number, by rwa [hput]⟩
  · intro number
    rw [hput]
    exact hbounded.once number
  · intro number
    rw [hput, propagatedBy, hpropagated]
    exact hbounded.propagated number
  · intro number hwaits
    rw [hput]
    exact h.fresh number (hwaiting number hwaits)

theorem Inv.add (h : Inv c maxPooledTransactions events state) (tx : Transaction) :
    Inv c maxPooledTransactions (events ++ [.add tx]) (state.step c (.add tx)) := by
  refine h.quiet (List.Sublist.refl _) rfl rfl (h.known.push ⟨tx, _⟩) ?_
  intro number hwaits call hcall
  refine hwaits call ?_
  -- a call that had begun keeps its number
  change call ∈ (state.adds ++ [_])[number]?
  rw [List.getElem?_append_left (List.getElem?_eq_some_iff.mp hcall).1]
  exact hcall

theorem foldl_delete_sublist (executed : List Transaction) (pool : EntryMap Hash Transaction) :
    (executed.foldl (fun pool tx => pool.delete (tx.hash c)) pool).entries.Sublist pool.entries := by
  induction executed generalizing pool with
  | nil => exact List.Sublist.refl _
  | cons tx executed ih => exact (ih (pool.delete (tx.hash c))).trans EntryMap.filter_sublist

/-- The code of `update` is about no call of `add`. -/
theorem Inv.update (h : Inv c maxPooledTransactions events state) (executed : List Transaction) :
    Inv c maxPooledTransactions (events ++ [.update executed]) (state.step c (.update executed)) :=
  h.quiet (foldl_delete_sublist executed state.pool) rfl rfl
    (h.known.snoc rfl fun _ _ _ _ _ => nofun) fun _ hwaits => hwaits

theorem checked_frame (i : Nat) (answer : Option Bool) :
    (state.checked c i answer).pool.entries.Sublist state.pool.entries ∧
      (state.checked c i answer).maxPooledTransactions = state.maxPooledTransactions ∧
      (state.checked c i answer).propagated = state.propagated ∧
      (state.checked c i answer).adds = state.adds := by
  rw [PoolCalls.checked]
  cases state.checking[i]? with
  | none => exact ⟨List.Sublist.refl _, rfl, rfl, rfl⟩
  | some tx =>
      simp only
      split
      · exact ⟨EntryMap.filter_sublist, rfl, rfl, rfl⟩
      · exact ⟨List.Sublist.refl _, rfl, rfl, rfl⟩

theorem Inv.checked (h : Inv c maxPooledTransactions events state) (i : Nat) (answer : Option Bool) :
    Inv c maxPooledTransactions (events ++ [.checked i answer]) (state.step c (.checked i answer)) := by
  rcases @checked_frame c state i answer with ⟨hpool, hbound, hpropagated, hadds⟩
  refine h.quiet hpool hbound hpropagated ?_ ?_
  · change Known _ (state.checked c i answer).adds
    rw [hadds]
    exact h.known.snoc rfl fun _ _ _ _ _ => nofun
  · intro number hwaits
    change ∀ call ∈ (state.checked c i answer).adds[number]?, call.waiting at hwaits
    rwa [hadds] at hwaits

/-- The calls after an answer to one of them. -/
theorem Known.answered {adds : List AddCall} {call : AddCall} {number : Nat}
    (h : Known events adds) (hcall : adds[number]? = some call) (call' : AddCall)
    (htx : call'.tx = call.tx) (hwaiting : call'.waiting = false) (answer : Option Bool) :
    Known (events ++ [.validated number answer]) (adds.set number call') := by
  refine (h.set hcall call' htx hwaiting).snoc rfl ?_
  rintro other found hfound hwaits answer' heq
  cases heq
  rw [List.getElem?_set_self (List.getElem?_eq_some_iff.mp hcall).1] at hfound
  cases hfound
  rw [hwaiting] at hwaits
  cases hwaits

/-- After the answer the call does not wait, and the others are as they were. -/
theorem waiting_of_set {adds : List AddCall} {call call' : AddCall} {number other : Nat}
    (hcall : adds[number]? = some call) (hended : call'.waiting = false)
    (hwaits : ∀ found ∈ (adds.set number call')[other]?, found.waiting) :
    other ≠ number ∧ ∀ found ∈ adds[other]?, found.waiting := by
  by_cases hsame : number = other
  · subst hsame
    have hfound := hwaits call' (List.getElem?_set_self (List.getElem?_eq_some_iff.mp hcall).1)
    rw [hended] at hfound
    cases hfound
  · rw [List.getElem?_set_ne hsame] at hwaits
    exact ⟨fun h => hsame h.symm, hwaits⟩

/-- An answer to no call, or to one that has had its answer. -/
theorem Inv.ignored (h : Inv c maxPooledTransactions events state) {number : Nat}
    {answer : Option Bool} (hsame : state.validated c number answer = state)
    (hcall : ∀ call ∈ state.adds[number]?, call.waiting = false) :
    Inv c maxPooledTransactions (events ++ [.validated number answer])
      (state.step c (.validated number answer)) := by
  have hstep : state.step c (.validated number answer) = state := hsame
  refine h.quiet (by rw [hstep]) (by rw [hstep]) (by rw [hstep]) ?_ ?_
  · rw [hstep]
    refine h.known.snoc rfl ?_
    rintro other call hfound hwaits answer' heq
    cases heq
    rw [hcall call hfound] at hwaits
    cases hwaits
  · rw [hstep]
    exact fun _ hwaits => hwaits

/-- The validator has accepted the transaction of a call that waits, and there is room for it. -/
theorem Inv.put (h : Inv c maxPooledTransactions events state) {number : Nat} {call : AddCall}
    (hcall : state.adds[number]? = some call) (hwaiting : call.waiting = true)
    (hroom : state.canAdd (call.tx.hash c)) :
    Inv c maxPooledTransactions (events ++ [.validated number (some true)])
      (state.step c (.validated number (some true))) := by
  have hbounded := h.bounded
  -- `hlt` is about the pool as it is now, whatever was checked before the wait
  rcases canAdd_eq_true.mp hroom with ⟨hnone, hlt⟩
  let call' : AddCall := { call with waiting := false }
  have hstep : state.step c (.validated number (some true)) =
      { state with
        pool := state.pool.set (call.tx.hash c) call.tx
        adds := state.adds.set number call'
        propagated := state.propagated ++ [(number, call.tx)] } := by
    exact (validated_eq c hcall hwaiting).trans (if_pos ⟨rfl, hroom⟩)
  have hentries : (state.step c (.validated number (some true))).pool.entries =
      state.pool.entries ++ [(call.tx.hash c, call.tx)] := by
    rw [hstep]
    exact EntryMap.entries_set hnone
  have hnew : (call.tx.hash c, call.tx) ∉ state.pool.entries := by
    intro hmem
    rw [EntryMap.get_eq_some.mpr hmem] at hnone
    cases hnone
  have hput : ∀ other, putBy c other (new maxPooledTransactions)
      (events ++ [.validated number (some true)]) =
        putBy c other (new maxPooledTransactions) events ++
          if number = other then [(call.tx.hash c, call.tx)] else [] := by
    intro other
    simp only [h.putBy_snoc, entered_eq_singleton hnew hentries, caller, Option.some.injEq]
  have hfirst : putBy c number (new maxPooledTransactions) events = [] := by
    refine h.fresh number ?_
    intro found hfound
    cases hcall.symm.trans hfound
    exact hwaiting
  have hmem : ∀ entry ∈ (state.step c (.validated number (some true))).pool.entries,
      entry ∈ state.pool.entries ∨ entry = (call.tx.hash c, call.tx) := by
    intro entry hentry
    rw [hentries, List.mem_append, List.mem_singleton] at hentry
    exact hentry
  refine ⟨⟨?_, ?_, ?_, ?_, ?_, ?_⟩, ?_, ?_, h.run_snoc, ?_⟩
  · rw [hentries, List.length_append, List.length_singleton, ← h.bound]
    exact hlt
  · intro entry hentry
    rcases hmem entry hentry with hold | rfl
    · exact hbounded.keyed entry hold
    · rfl
  · intro entry hentry
    rcases hmem entry hentry with hold | rfl
    · exact (hbounded.accepted entry hold).snoc _
    · -- the validator has just accepted it for this call
      rcases h.known.began number call hcall with ⟨since, hbegan, hwaits⟩
      exact ⟨events, [], number, since, rfl, hbegan, hwaits hwaiting⟩
  · intro entry hentry
    rcases hmem entry hentry with hold | rfl
    · rcases hbounded.put entry hold with ⟨other, hother⟩
      exact ⟨other, hput other ▸ List.mem_append_left _ hother⟩
    · exact ⟨number, by simp [hput]⟩
  · intro other
    rw [hput]
    split
    · rename_i hsame
      subst hsame
      simp [hfirst]
    · simpa using hbounded.once other
  · intro other
    have hbefore := hbounded.propagated other
    rw [hput, hstep]
    simp only [propagatedBy, List.filter_append, List.map_append, List.filter_singleton]
      at hbefore ⊢
    rw [hbefore]
    by_cases hsame : number = other
    · simp [hsame]
    · simp [hsame]
  · rw [hstep]
    exact h.known.answered hcall call' rfl rfl _
  · rw [hstep]
    exact h.bound
  · intro other hwaits
    rw [hstep] at hwaits
    rcases waiting_of_set hcall rfl hwaits with ⟨hne, hbefore⟩
    rw [hput, if_neg (Ne.symm hne), List.append_nil]
    exact h.fresh other hbefore

theorem Inv.validated (h : Inv c maxPooledTransactions events state) (number : Nat)
    (answer : Option Bool) :
    Inv c maxPooledTransactions (events ++ [.validated number answer])
      (state.step c (.validated number answer)) := by
  cases hcall : state.adds[number]? with
  | none => exact h.ignored (by simp [PoolCalls.validated, hcall]) (by simp [hcall])
  | some call =>
      by_cases hwaiting : call.waiting = true
      · by_cases hput : answer = some true ∧ state.canAdd (call.tx.hash c)
        · rcases hput with ⟨rfl, hroom⟩
          exact h.put hcall hwaiting hroom
        · -- the call ends, and the pool is left as it is
          have hstep : state.step c (.validated number answer) =
              { state with adds := state.adds.set number { call with waiting := false } } :=
            (validated_eq c hcall hwaiting).trans (if_neg hput)
          refine h.quiet (by rw [hstep]) (by rw [hstep]) (by rw [hstep]) ?_ ?_
          · rw [hstep]
            exact h.known.answered hcall { call with waiting := false } rfl rfl _
          · intro other hwaits
            rw [hstep] at hwaits
            exact (waiting_of_set hcall rfl hwaits).2
      · refine h.ignored ?_ ?_
        · simp [PoolCalls.validated, hcall, hwaiting]
        · intro other hother
          cases hcall.symm.trans hother
          exact Bool.not_eq_true _ ▸ hwaiting

theorem Inv.step (h : Inv c maxPooledTransactions events state) (event : CallEvent) :
    Inv c maxPooledTransactions (events ++ [event]) (state.step c event) := by
  cases event with
  | add tx => exact h.add tx
  | update executed => exact h.update executed
  | validated number answer => exact h.validated number answer
  | checked i answer => exact h.checked i answer

theorem inv_run (maxPooledTransactions : Nat) (events : List CallEvent) :
    Inv c maxPooledTransactions events (events.foldl (PoolCalls.step c) (new maxPooledTransactions)) := by
  induction events using List.reverseRecOn with
  | nil => exact inv_new
  | append_singleton events event ih =>
      rw [List.foldl_append]
      exact ih.step event

end Invariant

/-! ## The pool of `TransactionPool` -/

section Simulation

variable {c} {state : PoolCalls} {other : TransactionPool} {event : CallEvent}

/-- The same pool, with the transactions of the calls that wait. -/
structure Simulates (state : PoolCalls) (other : TransactionPool) : Prop where
  bound : other.maxPooledTransactions = state.maxPooledTransactions
  pool : other.pool = state.pool.values
  adding : other.adding = (state.adds.filter AddCall.waiting).map AddCall.tx
  checking : other.checking = state.checking

/-- The place of a call among those that wait, past their end if it does not wait. -/
def place (state : PoolCalls) (number : Nat) : Nat :=
  match state.adds[number]? with
  | some call =>
      if call.waiting then ((state.adds.take number).filter AddCall.waiting).length
      else state.adds.length
  | none => state.adds.length

/-- The event of `TransactionPool`. -/
def poolEvent (state : PoolCalls) : CallEvent → PoolEvent
  | .add tx => .add tx
  | .update executed => .update executed
  | .validated number answer => .validated (state.place number) answer
  | .checked i answer => .checked i answer

/-- The entries are keyed by their own hashes. -/
def Keyed (c : Crypto) (pool : EntryMap Hash Transaction) : Prop :=
  ∀ entry ∈ pool.entries, entry.1 = entry.2.hash c

theorem Keyed.keys_eq {pool : EntryMap Hash Transaction} (h : Keyed c pool) :
    pool.keys = pool.values.map (Transaction.hash c) := by
  rw [EntryMap.keys, EntryMap.values, List.map_map]
  exact List.map_congr_left h

theorem Keyed.delete {pool : EntryMap Hash Transaction} (h : Keyed c pool) (key : Hash) :
    Keyed c (pool.delete key) ∧
      (pool.delete key).values = pool.values.filter fun tx => tx.hash c ≠ key := by
  constructor
  · intro entry hentry
    exact h entry (EntryMap.filter_sublist.subset hentry)
  · rw [EntryMap.values, EntryMap.values, List.filter_map]
    refine congrArg (List.map Prod.snd) (List.filter_congr ?_)
    intro entry hentry
    simp [h entry hentry]

theorem Keyed.deleteAll {pool : EntryMap Hash Transaction} (h : Keyed c pool)
    (executed : List Transaction) :
    (executed.foldl (fun pool tx => pool.delete (tx.hash c)) pool).values =
      pool.values.filter fun tx => tx.hash c ∉ TransactionPool.keys c executed := by
  induction executed generalizing pool with
  | nil => simp [TransactionPool.keys]
  | cons tx executed ih =>
      rcases h.delete (tx.hash c) with ⟨hkeyed, hvalues⟩
      rw [List.foldl_cons, ih hkeyed, hvalues, List.filter_filter]
      refine List.filter_congr ?_
      intro found _
      rw [Bool.and_comm]
      simp [TransactionPool.keys]

theorem Simulates.canAdd (h : Simulates state other) (hkeyed : Keyed c state.pool) (key : Hash) :
    other.canAdd c key = state.canAdd key := by
  have hhas : other.has c key = state.has key := by
    rw [Bool.eq_iff_iff, has, EntryMap.isSome_get, hkeyed.keys_eq, TransactionPool.has, h.pool,
      TransactionPool.keys, decide_eq_true_iff]
  rw [TransactionPool.canAdd, PoolCalls.canAdd, hhas, h.pool, h.bound, EntryMap.values,
    List.length_map]

/-- The calls that wait, around one of them. -/
theorem filter_around {adds : List AddCall} {number : Nat} {call : AddCall}
    (hcall : adds[number]? = some call) (call' : AddCall) :
    ∃ before after, before = adds.take number ∧ adds = before ++ call :: after ∧
      adds.set number call' = before ++ call' :: after := by
  rcases List.getElem?_eq_some_iff.mp hcall with ⟨hlt, rfl⟩
  refine ⟨adds.take number, adds.drop (number + 1), rfl, ?_, ?_⟩
  · rw [List.getElem_cons_drop, List.take_append_drop]
  · exact List.set_eq_take_append_cons_drop.trans (if_pos hlt)

theorem Simulates.answered (h : Simulates state other) {number : Nat} {call : AddCall}
    (hcall : state.adds[number]? = some call) (hwaiting : call.waiting) (call' : AddCall)
    (hwaiting' : call'.waiting = false) :
    other.adding[state.place number]? = some call.tx ∧
      other.adding.eraseIdx (state.place number) =
        ((state.adds.set number call').filter AddCall.waiting).map AddCall.tx := by
  rcases filter_around hcall call' with ⟨before, after, hbefore, hadds, hset⟩
  have hplace : state.place number = ((before.filter AddCall.waiting).map AddCall.tx).length := by
    rw [place, hcall, hbefore, List.length_map]
    exact if_pos hwaiting
  have hadding : other.adding = (before.filter AddCall.waiting).map AddCall.tx ++
      call.tx :: (after.filter AddCall.waiting).map AddCall.tx := by
    rw [h.adding, hadds]
    simp [hwaiting]
  constructor
  · rw [hplace, hadding]
    simp
  · rw [hplace, hadding, hset, List.eraseIdx_append_of_length_le (Nat.le_refl _)]
    simp [hwaiting']

theorem Simulates.add (h : Simulates state other) (hkeyed : Keyed c state.pool) (tx : Transaction) :
    Simulates (state.add c tx) (other.add c tx) := by
  have hcan : TransactionPool.canAdd c (tx.hash c)
      { other with calls := other.calls ++ [PoolCall.add tx] } = state.canAdd (tx.hash c) :=
    h.canAdd hkeyed (tx.hash c)
  simp only [PoolCalls.add, TransactionPool.add, hcan]
  by_cases hwaits : state.canAdd (tx.hash c)
  · rw [if_pos hwaits]
    refine ⟨h.bound, h.pool, ?_, h.checking⟩
    simp [h.adding, hwaits]
  · rw [if_neg hwaits]
    refine ⟨h.bound, h.pool, ?_, h.checking⟩
    simp [h.adding, Bool.not_eq_true _ ▸ hwaits]

/-- An answer to no call that waits does nothing to either pool. -/
theorem Simulates.ignored (h : Simulates state other) {number : Nat} (answer : Option Bool)
    (hplace : state.place number = state.adds.length) :
    Simulates state (other.validated c (state.place number) answer) := by
  have hnone : other.adding[state.place number]? = none := by
    refine List.getElem?_eq_none ?_
    rw [hplace, h.adding, List.length_map]
    exact List.length_filter_le _ _
  rw [TransactionPool.validated, hnone]
  exact h

theorem Simulates.validated (h : Simulates state other) (hkeyed : Keyed c state.pool) (number : Nat)
    (answer : Option Bool) :
    Simulates (state.validated c number answer)
      (other.validated c (state.place number) answer) := by
  cases hcall : state.adds[number]? with
  | none =>
      rw [PoolCalls.validated, hcall]
      exact h.ignored answer (by simp [place, hcall])
  | some call =>
      by_cases hwaiting : call.waiting = true
      · rw [validated_eq c hcall hwaiting]
        have hcan : TransactionPool.canAdd c (call.tx.hash c)
            { other with adding := other.adding.eraseIdx (state.place number) } =
              state.canAdd (call.tx.hash c) := h.canAdd hkeyed (call.tx.hash c)
        by_cases hput : answer = some true ∧ state.canAdd (call.tx.hash c)
        · -- both put it at the end of the pool
          rw [if_pos hput]
          rcases hput with ⟨rfl, hput⟩
          rcases h.answered hcall hwaiting { call with waiting := false } rfl with ⟨hget, herase⟩
          have hentries : (state.pool.set (call.tx.hash c) call.tx).entries =
              state.pool.entries ++ [(call.tx.hash c, call.tx)] :=
            EntryMap.entries_set (canAdd_eq_true.mp hput).1
          simp only [TransactionPool.validated, hget, hcan, hput, if_true]
          refine ⟨h.bound, ?_, herase, h.checking⟩
          simp [h.pool, EntryMap.values, hentries]
        · -- neither puts it, be it refused, of no answer or by now one too many
          rw [if_neg hput]
          rcases h.answered hcall hwaiting { call with waiting := false } rfl with
            ⟨hget, herase⟩
          simp only [TransactionPool.validated, hget, hcan]
          split
          · rename_i hanswer
            rw [if_neg fun hput' => hput ⟨hanswer, hput'⟩]
            exact ⟨h.bound, h.pool, herase, h.checking⟩
          · exact ⟨h.bound, h.pool, herase, h.checking⟩
      · rw [PoolCalls.validated, hcall]
        simp only [hwaiting]
        exact h.ignored answer (by simp [place, hcall, hwaiting])

theorem Simulates.checked (h : Simulates state other) (hkeyed : Keyed c state.pool) (i : Nat)
    (answer : Option Bool) :
    Simulates (state.checked c i answer) (other.checked c i answer) := by
  rw [PoolCalls.checked, TransactionPool.checked, h.checking]
  cases state.checking[i]? with
  | none => exact h
  | some tx =>
      simp only
      split
      · refine ⟨h.bound, ?_, h.adding, rfl⟩
        rw [(hkeyed.delete (tx.hash c)).2]
        simp [TransactionPool.delete, h.pool]
      · exact ⟨h.bound, h.pool, h.adding, rfl⟩

theorem Simulates.step (h : Simulates state other) (hkeyed : Keyed c state.pool) (event : CallEvent) :
    Simulates (state.step c event) (other.step c (state.poolEvent event)) := by
  cases event with
  | add tx => exact h.add hkeyed tx
  | validated number answer => exact h.validated hkeyed number answer
  | checked i answer => exact h.checked hkeyed i answer
  | update executed =>
      have hpool := hkeyed.deleteAll executed
      refine ⟨h.bound, ?_, h.adding, ?_⟩
      · simp [PoolCalls.step, PoolCalls.update, hpool, TransactionPool.step, poolEvent,
          TransactionPool.update, TransactionPool.delete, h.pool]
      · simp [PoolCalls.step, PoolCalls.update, hpool, TransactionPool.step, poolEvent,
          TransactionPool.update, TransactionPool.delete, h.pool, h.checking]

/-- Each run of the calls is a run of `TransactionPool`. -/
theorem exists_simulates (maxPooledTransactions : Nat) (events : List CallEvent) :
    ∃ poolEvents : List PoolEvent,
      Simulates (events.foldl (PoolCalls.step c) (new maxPooledTransactions))
        (poolEvents.foldl (TransactionPool.step c) (.new maxPooledTransactions)) := by
  induction events using List.reverseRecOn with
  | nil => exact ⟨[], rfl, rfl, rfl, rfl⟩
  | append_singleton events event ih =>
      rcases ih with ⟨poolEvents, hsim⟩
      have hnext := hsim.step (inv_run maxPooledTransactions events).bounded.keyed event
      let state := events.foldl (PoolCalls.step c) (new maxPooledTransactions)
      refine ⟨poolEvents ++ [state.poolEvent event], ?_⟩
      rw [List.foldl_append, List.foldl_append]
      exact hnext

end Simulation

/-- Whatever the order of calls and answers: the pool is within its bound, each entry has its own hash
as key and was accepted after its call began, and a call puts at most one entry into the pool and
propagates just the transaction that it has put there. -/
theorem pool_bounded (maxPooledTransactions : Nat) (events : List CallEvent) :
    Bounded c maxPooledTransactions events (events.foldl (step c) (new maxPooledTransactions)) := by
  exact (inv_run maxPooledTransactions events).bounded

end PoolCalls
end ChainCore
end UniqysKit
