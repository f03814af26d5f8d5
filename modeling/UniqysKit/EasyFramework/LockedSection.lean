import UniqysKit.EasyFramework.Events
import UniqysKit.EasyFramework.Processes

/-!
# Calls around the locked section of a transaction

Commands and requests come in at any time, also while none of the transactions is executed, and go on
step by step while the rest of the program does.  An event is the code between two awaits; a run is a
list of events in any order, where an event that cannot happen does nothing.

A memcached command is refused in read-only mode, but what was let in goes on after the mode has
changed; a request to the inner API is not refused at all.  So the state only changes inside of the
locked section if the application waits for its calls before it answers, and makes no writing request
to the inner API at other times.
-/

namespace UniqysKit
namespace EasyFramework

open Library

/-! ## The system -/

/-- The two mutexes that calls queue for. -/
inductive CallMutex
  | memcached
  | innerApi
  deriving DecidableEq

namespace Call

/-- The mutex behind which a call is done; `flush` and `PUT /validators` have none. -/
def mutex : Call → Option CallMutex
  | other | retrieve _ _ | getAccount _ _ | flush | putValidators _ => none
  | putBalance _ _ | transfer _ _ _ => some .innerApi
  | set _ _ _ | add _ _ _ | replace _ _ _ | append _ _ | prepend _ _ | cas _ _ _ _ | delete _
  | incr _ _ | decr _ _ => some .memcached

/-- A command or request that writes. -/
def isWriting : Call → Bool
  | other | retrieve _ _ | getAccount _ _ => false
  | _ => true

/-- A request to the inner API that writes. -/
def isInnerWrite : Call → Bool
  | putBalance _ _ | transfer _ _ _ | putValidators _ => true
  | _ => false

end Call

/-- A call that was let in. -/
structure Task where
  mutex : Option CallMutex
  process : Process State

/-- Where `executeTransactions` is with the locked section of a transaction: outside, before the
request to the application, or waiting for the response. The root is the one to roll back to. -/
inductive Phase
  | outside
  | locked (tx : CoreTransaction) (root : Hash)
  | requested (tx : CoreTransaction) (root : Hash)
  deriving DecidableEq

structure System where
  state : State
  memcachedImpl : EasyMemcached
  phase : Phase
  /-- The proxied requests that hold the read lock. -/
  readers : Nat
  tasks : List Task

/-- The code between two awaits. -/
inductive SystemEvent
  /-- A command or request comes in. -/
  | call (call : Call)
  /-- A call that was let in goes on. -/
  | goOn (i : Nat)
  | beginTransaction (tx : CoreTransaction)
  /-- The account or the event nonce is updated, and the request is sent. -/
  | request
  /-- The response has come, or an error in place of it. -/
  | respond (header : BlockHeader) (response : Except Error HttpResponse)
  | newHeight (blockTimestamp : Nat) (validTxHashes : List Hash) (eventExists : Bool)
      (eventTxRoot : Hash)
  /-- The gateway sends a request on to the application. -/
  | proxy
  | proxied

namespace System

variable (c : Crypto)

/-- The task is the first of those that wait for its mutex. -/
def isFirst (tasks : List Task) (i : Nat) (task : Task) : Bool :=
  task.mutex = none || (tasks.take i).all fun other => other.mutex ≠ task.mutex

/-- The end of the section: whatever has happened, the memcached server only reads again. -/
def unlock (system : System) (state : State) : System :=
  { system with
    state
    memcachedImpl := { system.memcachedImpl with mode := .readOnly }
    phase := .outside }

/-- The `catch` branch. -/
def rollback (system : System) (root : Hash) (state : State) : System :=
  system.unlock (Fallible.final (State.onTop (MerklePatriciaTrie.rollback root) state))

/-- A writing command is refused in read-only mode, a request to the inner API is not. What only
reads is left out. -/
def letIn (system : System) (call : Call) : System :=
  if call.isWriting ∧ (call.isInnerWrite ∨ system.memcachedImpl.mode = .readWrite) then
    { system with
      tasks := system.tasks ++ [⟨call.mutex, call.process c system.memcachedImpl⟩] }
  else system

/-- The next step of a task. -/
def goOn (system : System) (i : Nat) : System :=
  match system.tasks[i]? with
  | some task =>
      match task.process with
      | .finished => { system with tasks := system.tasks.eraseIdx i }
      | .step act next =>
          if isFirst system.tasks i task then
            { system with
              state := act system.state
              tasks := system.tasks.set i { task with process := next system.state } }
          else system
  | none => system

def request (system : System) (tx : CoreTransaction) (root : Hash) : System :=
  match Controller.prepare c tx system.state with
  | .ok _ state =>
      { system with
        state
        memcachedImpl := { system.memcachedImpl with mode := .readWrite }
        phase := .requested tx root }
  | .error _ state => system.rollback root state

def respond (system : System) (tx : CoreTransaction) (root : Hash) (header : BlockHeader) :
    Except Error HttpResponse → System
  | .ok res =>
      match Controller.finish header res tx system.state with
      | .ok _ state => system.unlock state
      | .error _ state => system.rollback root state
  | .error _ => system.rollback root system.state

def step (system : System) : SystemEvent → System
  | .call call => system.letIn c call
  | .goOn i => system.goOn i
  | .beginTransaction tx =>
      match system.phase with
      | .outside =>
          if system.readers = 0 then
            { system with phase := .locked tx system.state.top.rootHash }
          else system
      | _ => system
  | .request =>
      match system.phase with
      | .locked tx root => system.request c tx root
      | _ => system
  | .respond header response =>
      match system.phase with
      | .requested tx root => system.respond tx root header response
      | _ => system
  | .newHeight blockTimestamp validTxHashes eventExists eventTxRoot =>
      match system.phase with
      | .outside =>
          if system.readers = 0 then
            { system with
              state := Fallible.final (State.newHeight blockTimestamp validTxHashes eventExists
                eventTxRoot system.state) }
          else system
      | _ => system
  | .proxy =>
      match system.phase with
      | .outside => { system with readers := system.readers + 1 }
      | _ => system
  | .proxied => { system with readers := system.readers - 1 }

/-- The system over stores that were empty when it was connected. -/
def connected (timestamp : Nat) (initialValidatorSet : ValidatorSet) (useCas : Bool) : System where
  state := (Controller.connected c timestamp initialValidatorSet ⟨useCas, .readOnly⟩).state
  memcachedImpl := ⟨useCas, .readOnly⟩
  phase := .outside
  readers := 0
  tasks := []

/-! ## The condition -/

/-- The event is a writing request to the inner API. -/
def isInnerWrite : SystemEvent → Bool
  | .call call => call.isInnerWrite
  | _ => false

/-- The event ends the locked section. -/
def ends (system : System) : SystemEvent → Bool
  | .request =>
      match system.phase with
      | .locked tx _ => (Fallible.value (Controller.prepare c tx system.state)).isNone
      | _ => false
  | .respond _ _ =>
      match system.phase with
      | .requested _ _ => true
      | _ => false
  | _ => false

/-- The event is no writing request to the inner API outside of a section, and no section ends while
a call goes on. -/
structure Contained (system : System) (event : SystemEvent) : Prop where
  inside : isInnerWrite event = true → system.phase ≠ .outside
  finished : system.ends c event = true → system.tasks = []

instance (system : System) (event : SystemEvent) : Decidable (system.Contained c event) :=
  decidable_of_iff ((isInnerWrite event = true → system.phase ≠ .outside) ∧
    (system.ends c event = true → system.tasks = []))
    ⟨fun h => ⟨h.1, h.2⟩, fun h => ⟨h.inside, h.finished⟩⟩

/-- Outside of a section the event changes neither the root nor the next validator set. -/
def Steady (system : System) (event : SystemEvent) : Prop :=
  system.phase = .outside →
    (system.step c event).state.top.rootHash = system.state.top.rootHash ∧
      (system.step c event).state.metaState.nextValidatorSet =
        system.state.metaState.nextValidatorSet

/-! ## Runs -/

/-- Outside of a section no call goes on, and the memcached server only reads. -/
def Settled (system : System) : Prop :=
  system.phase = .outside → system.tasks = [] ∧ system.memcachedImpl.mode = .readOnly

variable {c} {system : System} {event : SystemEvent}

theorem settled_connected (timestamp : Nat) (initialValidatorSet : ValidatorSet) (useCas : Bool) :
    (connected c timestamp initialValidatorSet useCas).Settled := by
  intro _
  exact ⟨rfl, rfl⟩

theorem settled_unlock {state : State} (htasks : system.tasks = []) :
    (system.unlock state).Settled := by
  intro _
  exact ⟨htasks, rfl⟩

/-- A call does nothing to the state by coming in, and outside of a section it stays out. -/
theorem letIn_of_outside {call : Call} (hcall : call.isInnerWrite = false)
    (hmode : system.memcachedImpl.mode = .readOnly) : system.letIn c call = system := by
  rw [letIn, if_neg]
  simp [hcall, hmode]

theorem phase_letIn (system : System) (call : Call) : (system.letIn c call).phase = system.phase := by
  unfold letIn
  split
  · rfl
  · rfl

theorem phase_goOn (system : System) (i : Nat) : (system.goOn i).phase = system.phase := by
  unfold goOn
  split
  · split
    · rfl
    · split
      · rfl
      · rfl
  · rfl

theorem goOn_of_no_tasks (htasks : system.tasks = []) (i : Nat) : system.goOn i = system := by
  simp [goOn, htasks]

theorem Settled.letIn {call : Call} (h : system.Settled)
    (hcontained : system.Contained c (.call call)) : (system.letIn c call).Settled := by
  intro houtside
  rw [phase_letIn] at houtside
  rcases h houtside with ⟨htasks, hmode⟩
  have hcall : call.isInnerWrite = false := by
    by_contra hinner
    exact hcontained.inside (by simpa [isInnerWrite] using hinner) houtside
  rw [letIn_of_outside hcall hmode]
  exact ⟨htasks, hmode⟩

theorem settled_request {tx : CoreTransaction} {root : Hash}
    (htasks : (Fallible.value (Controller.prepare c tx system.state)).isNone = true →
      system.tasks = []) : (system.request c tx root).Settled := by
  unfold request
  cases hprepare : Controller.prepare c tx system.state with
  | ok _ state =>
      intro houtside
      cases houtside
  | error e state =>
      rw [hprepare] at htasks
      exact settled_unlock (htasks rfl)

theorem settled_respond {tx : CoreTransaction} {root : Hash} {header : BlockHeader}
    {response : Except Error HttpResponse} (htasks : system.tasks = []) :
    (system.respond tx root header response).Settled := by
  unfold respond
  cases response with
  | error e => exact settled_unlock htasks
  | ok res =>
      simp only
      cases Controller.finish header res tx system.state with
      | ok _ state => exact settled_unlock htasks
      | error e state => exact settled_unlock htasks

/-- What one event keeps. -/
theorem Settled.step (h : system.Settled) (hcontained : system.Contained c event) :
    (system.step c event).Settled := by
  cases event with
  | call call => exact h.letIn hcontained
  | goOn i =>
      intro houtside
      -- outside of a locked section no task is left to go on
      rw [System.step, phase_goOn] at houtside
      rw [System.step, goOn_of_no_tasks (h houtside).1]
      exact h houtside
  | beginTransaction tx =>
      rw [System.step]
      split
      · split
        · intro houtside
          cases houtside
        · exact h
      · exact h
  | request =>
      have hends := hcontained.finished
      simp only [ends] at hends
      rw [System.step]
      split
      · rename_i tx root hphase
        rw [hphase] at hends
        -- the tasks of the section are done before the request is sent
        exact settled_request hends
      · exact h
  | respond header response =>
      have hends := hcontained.finished
      simp only [ends] at hends
      rw [System.step]
      split
      · rename_i tx root hphase
        rw [hphase] at hends
        exact settled_respond (hends rfl)
      · exact h
  | newHeight blockTimestamp validTxHashes eventExists eventTxRoot =>
      rw [System.step]
      split
      · split
        · exact h
        · exact h
      · exact h
  | proxy =>
      rw [System.step]
      split
      · exact h
      · exact h
  | proxied => exact h

theorem Settled.steady (h : system.Settled) (hcontained : system.Contained c event) :
    system.Steady c event := by
  intro houtside
  rcases h houtside with ⟨htasks, hmode⟩
  cases event with
  | call call =>
      -- an inner write comes only while a transaction is under way
      have hcall := fun hinner => hcontained.inside hinner houtside
      rw [System.step, letIn_of_outside (by simpa [isInnerWrite] using hcall) hmode]
      exact ⟨rfl, rfl⟩
  | goOn i =>
      rw [System.step, goOn_of_no_tasks htasks]
      exact ⟨rfl, rfl⟩
  | newHeight blockTimestamp validTxHashes eventExists eventTxRoot =>
      rw [System.step, houtside]
      simp only
      split
      · rw [State.newHeight_eq]
        split
        · exact ⟨rfl, rfl⟩
        · exact ⟨rfl, rfl⟩
      · exact ⟨rfl, rfl⟩
  | beginTransaction tx =>
      rw [System.step, houtside]
      simp only
      split
      · exact ⟨rfl, rfl⟩
      · exact ⟨rfl, rfl⟩
  | request =>
      rw [System.step, houtside]
      exact ⟨rfl, rfl⟩
  | respond header response =>
      rw [System.step, houtside]
      exact ⟨rfl, rfl⟩
  | proxy =>
      rw [System.step, houtside]
      exact ⟨rfl, rfl⟩
  | proxied => exact ⟨rfl, rfl⟩

/-- In every run whose events meet the condition, the root and the next validator set only change
while a transaction is executed. -/
theorem steady_of_contained (c : Crypto) (timestamp : Nat) (initialValidatorSet : ValidatorSet)
    (useCas : Bool) (events : List SystemEvent)
    (hcontained : Along (step c) (connected c timestamp initialValidatorSet useCas) events
      (Contained c)) :
    Along (step c) (connected c timestamp initialValidatorSet useCas) events (Steady c) := by
  have hsettled := hcontained.throughout (settled_connected timestamp initialValidatorSet useCas)
    fun system event h hevent => h.step hevent
  exact hsettled.along hcontained fun system event h hevent => h.steady hevent

/-- The application sets a key during a transaction and answers when that is done. -/
theorem steady_of_contained_set :
    Along (step .transparent) (connected .transparent 0 ⟨[]⟩ false)
      [.beginTransaction (.event Hash.zero 1), .request, .call (.set [107] 0 [1]), .goOn 0, .goOn 0,
        .respond Controller.blankHeader (.ok ⟨200, "OK", [], []⟩)] (Steady .transparent) :=
  steady_of_contained .transparent 0 ⟨[]⟩ false _ (by decide +kernel)

/-- The application answers first: the command was let in, and sets the key after the section. -/
theorem late_command_changes_root :
    ¬∀ (c : Crypto) (timestamp : Nat) (initialValidatorSet : ValidatorSet) (useCas : Bool)
      (events : List SystemEvent),
      Along (step c) (connected c timestamp initialValidatorSet useCas) events (Steady c) := by
  intro h
  have hsteady := h .transparent 0 ⟨[]⟩ false
    [.beginTransaction (.event Hash.zero 1), .request, .call (.set [107] 0 [1]),
      .respond Controller.blankHeader (.ok ⟨200, "OK", [], []⟩), .goOn 0]
    [.beginTransaction (.event Hash.zero 1), .request, .call (.set [107] 0 [1]),
      .respond Controller.blankHeader (.ok ⟨200, "OK", [], []⟩)] (.goOn 0) [] rfl
  exact absurd (hsteady (by decide +kernel)).1 (by decide +kernel)

end System

end EasyFramework
end UniqysKit
