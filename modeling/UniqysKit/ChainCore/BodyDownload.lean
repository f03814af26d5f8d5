import UniqysKit.ChainCore.BodyJobs
import UniqysKit.Library.Runs

/-!
# The loop of `catchUpBodies`

The jobs are worked off by an `AsyncLoop`, which takes one of them at a time off the queue and does
not wait for it.  A job that fails is first taken out of `inProgress`, in one promise callback, and
put back into the queue in another one; in between it is in neither of the two.  The loop stops when
the queue is empty and `inProgress` is zero.

The turns of the loop, the callbacks and what the jobs await are separate events here, in any order;
only a turn of the loop waits for the callbacks that are pending, as `setImmediate` does.
`bodies_complete` says that the promise does not resolve before all bodies are there.
-/

namespace UniqysKit
namespace ChainCore

open Library

/-! ## Jobs -/

/-- What an awaited promise was settled with. -/
inductive Settled
  | bodies (bodies : List BlockBody)
  | header (header : BlockHeader)
  | done
  | rejected

/-- Where the code of a job is: it awaits something, or one of its callbacks is pending. -/
inductive TaskState
  /-- `provider.use` has the mutex and starts the job with the next tick -/
  | starting
  | awaits (step : JobStep)
  | resumes (step : JobStep) (settled : Settled)
  /-- the callback of `finally`, which takes the job out of `inProgress` -/
  | onFinally (ok : Bool)
  /-- the callback of `catch`, which does nothing where the job has not failed -/
  | onCatch (ok : Bool)

/-- What is awaited happens: what has landed in the store, and what the promise is settled with.
`none` where the reply is not one it can get. -/
def JobStep.settle (store : BlockStore) (job : Job) : JobStep → Reply → Option (Option Write × Settled)
  | .fetchBodies, .bodies bodies => some (none, .bodies bodies)
  | .getHeader _ i, .done =>
      match store.getHeader (job.first + i) with
      | .ok header => some (none, .header header)
      | .error _ => some (none, .rejected)
  | .setBody _ i body, .done => some (some (.body (job.first + i) body), .done)
  | _, .failed => some (none, .rejected)
  | _, _ => none

/-- The next turn of the `for` loop of a job. -/
def Job.turn (job : Job) (bodies : List BlockBody) (i : Nat) : TaskState :=
  if i < job.count then .awaits (.getHeader bodies i) else .onFinally true

/-- The job goes on with what it has awaited. -/
def JobStep.resume (c : Crypto) (job : Job) : JobStep → Settled → TaskState
  | .fetchBodies, .bodies bodies => job.turn bodies 0
  | .getHeader bodies i, .header header =>
      match bodies[i]? with
      | some body =>
          match body.validate c header with
          | .ok _ => .awaits (.setBody bodies i body)
          | .error _ => .onFinally false
      -- `undefined` has no method `validate`
      | none => .onFinally false
  | .setBody bodies i _, .done => job.turn bodies (i + 1)
  | _, _ => .onFinally false

/-- The job still counts for `inProgress`. -/
def TaskState.counts : TaskState → Bool
  | .onCatch _ => false
  | _ => true

/-- A promise callback of the job is pending. -/
def TaskState.pending : TaskState → Bool
  | .resumes _ _ => true
  | .onFinally _ => true
  | .onCatch _ => true
  | _ => false

/-! ## The loop -/

structure BodyDownload where
  store : BlockStore
  jobQueue : List Job
  inProgress : Nat
  tasks : List (Job × TaskState)
  /-- the promise of the last turn is settled, and its callback is pending -/
  turnEnded : Bool
  /-- the next turn was given to `setImmediate` -/
  scheduled : Bool
  /-- `immediateId` is set -/
  running : Bool
  resolved : Bool

namespace BodyDownload

inductive Event
  /-- A turn of the loop, which takes that job if the queue is not empty. Some provider is idle for it,
  or none. -/
  | turn (job : Job) (idle : Bool)
  /-- The callback of the loop after a turn. -/
  | turnEnded
  /-- What the job awaits happens. -/
  | settle (i : Nat) (reply : Reply)
  /-- A callback of the job. -/
  | callback (i : Nat)
  /-- Other code writes to the store. -/
  | write (write : Write)

/-- Only turns of the loop wait for the pending promise callbacks. -/
def drained (s : BodyDownload) : Bool := !s.turnEnded && s.tasks.all fun task => !task.2.pending

/-- The function that the loop calls. -/
def fetchNext (s : BodyDownload) (job : Job) (idle : Bool) : BodyDownload :=
  if s.jobQueue = [] then
    -- with nothing to take, the loop stops or waits for the jobs under way
    if s.inProgress = 0 then { s with running := false, resolved := true, turnEnded := true }
    else { s with turnEnded := true }
  else if idle then
    { s with
      jobQueue := s.jobQueue.erase job
      inProgress := s.inProgress + 1
      tasks := s.tasks ++ [(job, .starting)]
      turnEnded := true }
  -- the job is put back
  else { s with turnEnded := true }

/-- The queue can give the job out, or has none. -/
def gives (s : BodyDownload) (job : Job) : Bool :=
  s.jobQueue.isEmpty || s.jobQueue.contains job && s.jobQueue.all fun other => job.last ≤ other.last

variable (c : Crypto)

/-- A callback of a job. -/
def call (s : BodyDownload) (i : Nat) : Job × TaskState → BodyDownload
  | (job, .starting) => { s with tasks := s.tasks.set i (job, .awaits .fetchBodies) }
  | (job, .resumes step settled) =>
      { s with tasks := s.tasks.set i (job, step.resume c job settled) }
  | (job, .onFinally ok) =>
      { s with tasks := s.tasks.set i (job, .onCatch ok), inProgress := s.inProgress - 1 }
  | (job, .onCatch ok) =>
      { s with
        tasks := s.tasks.eraseIdx i
        jobQueue := if ok then s.jobQueue else s.jobQueue ++ [job] }
  | (_, .awaits _) => s

/-- What the download writes at an event, and the state after it, but for the store. -/
def advance (s : BodyDownload) : Event → Option Write × BodyDownload
  | .turn job idle =>
      (none,
        if s.scheduled && s.drained && s.gives job then
          { s.fetchNext job idle with scheduled := false }
        else s)
  | .turnEnded =>
      (none, if s.turnEnded then { s with turnEnded := false, scheduled := s.running } else s)
  | .settle i reply =>
      match s.tasks[i]? with
      | some (job, .awaits step) =>
          match step.settle s.store job reply with
          | some (write, settled) =>
              (write, { s with tasks := s.tasks.set i (job, .resumes step settled) })
          | none => (none, s)
      | _ => (none, s)
  | .callback i =>
      match s.tasks[i]? with
      | some task => (none, s.call c i task)
      | none => (none, s)
  | .write _ => (none, s)

def written (s : BodyDownload) (event : Event) : Option Write := (s.advance c event).1

/-- The state after an event, with what has landed in the store. -/
def step (s : BodyDownload) (event : Event) : BodyDownload :=
  let (write, next) := s.advance c event
  let store := land s.store write
  { next with
    store := match event with
      | .write write => write.apply store
      | _ => store }

def run (s : BodyDownload) (events : List Event) : BodyDownload := events.foldl (step c) s

end BodyDownload

/-- `catchUpBodies` up to the loop. `none` where the split into jobs does not come to an end. -/
def catchUpBodies (options : SynchronizerOptions) (store : BlockStore) (target : Nat) :
    Option BodyDownload :=
  if options.maxFetchBodies = 0 ∧ store.getHeight < target then none
  else
    some {
      store
      jobQueue := splitJobs options store.getHeight target target
      inProgress := 0
      tasks := []
      turnEnded := false
      scheduled := true
      running := true
      resolved := false }

/-! ## What has happened -/

namespace BodyDownload

section Past

variable (c : Crypto) (s : BodyDownload) (events : List Event)

/-- The header was stored at the height after some of the events. -/
def Seen (height : Nat) (header : BlockHeader) : Prop :=
  ∃ before after, events = before ++ after ∧ (run c s before).store.getHeader height = .ok header

/-- The body fits a header that was stored at the height. -/
def Checked (height : Nat) (body : BlockBody) : Prop :=
  ∃ header, Seen c s events height header ∧ body.validate c header = .ok ()

/-- At one of the events the download has written a body for the height, which was checked before and
which the store holds after it. -/
def Stored (height : Nat) : Prop :=
  ∃ before event after body, events = before ++ event :: after ∧
    written c (run c s before) event = some (.body height body) ∧
    (run c s (before ++ [event])).store.getBody height = .ok body ∧ Checked c s before height body

end Past

section Facts

variable {c : Crypto} {s : BodyDownload} {events : List Event} {event : Event} {height : Nat}
  {header : BlockHeader} {body : BlockBody}

theorem run_append : run c s (events ++ [event]) = step c (run c s events) event := by
  rw [run, List.foldl_append]
  rfl

theorem seen_now (h : (run c s events).store.getHeader height = .ok header) :
    Seen c s events height header := ⟨events, [], (List.append_nil _).symm, h⟩

theorem Seen.later (h : Seen c s events height header) : Seen c s (events ++ [event]) height header := by
  rcases h with ⟨before, after, rfl, hheader⟩
  exact ⟨before, after ++ [event], List.append_assoc _ _ _, hheader⟩

theorem Checked.later (h : Checked c s events height body) :
    Checked c s (events ++ [event]) height body := by
  rcases h with ⟨header, hseen, hvalid⟩
  exact ⟨header, hseen.later, hvalid⟩

/-- What the download writes at an event is in the store after it. -/
theorem store_step {now : BodyDownload} {write : Write} (hwritten : written c now event = some write) :
    (step c now event).store = write.apply now.store := by
  rw [written] at hwritten
  cases event with
  | settle i reply => simp only [step, hwritten, land]
  | callback i =>
      simp only [advance] at hwritten
      split at hwritten
      · cases hwritten
      · cases hwritten
  | turn job idle => cases hwritten
  | turnEnded => cases hwritten
  | write write => cases hwritten

theorem stored_now (hwritten : written c (run c s events) event = some (.body height body))
    (hchecked : Checked c s events height body) : Stored c s (events ++ [event]) height := by
  refine ⟨events, event, [], body, rfl, hwritten, ?_, hchecked⟩
  rw [run_append, store_step hwritten, Write.apply, BlockStore.getBody, BlockStore.body_setBody]

theorem Stored.later (h : Stored c s events height) : Stored c s (events ++ [event]) height := by
  rcases h with ⟨before, first, after, body, rfl, hwritten, hheld, hchecked⟩
  refine ⟨before, first, after ++ [event], body, ?_, hwritten, hheld, hchecked⟩
  rw [List.append_assoc, List.cons_append]

end Facts

/-! ## The invariant -/

section Invariant

variable (c : Crypto) (s : BodyDownload) (events : List Event)

/-- The first bodies of the job are stored. -/
def UpTo (job : Job) (i : Nat) : Prop :=
  ∀ height, job.first ≤ height → height < job.first + i → Stored c s events height

/-- What is known of a job that awaits something. -/
def StepOk (job : Job) : JobStep → Prop
  | .fetchBodies => True
  | .getHeader _ i => UpTo c s events job i
  | .setBody _ i body => UpTo c s events job i ∧ Checked c s events (job.first + i) body

/-- What is known of what it was settled with. -/
def SettledOk (job : Job) : JobStep → Settled → Prop
  | .getHeader _ i, .header header => Seen c s events (job.first + i) header
  | .setBody _ i _, .done => Stored c s events (job.first + i)
  | _, _ => True

def TaskOk (job : Job) : TaskState → Prop
  | .awaits step => StepOk c s events job step
  | .resumes step settled => StepOk c s events job step ∧ SettledOk c s events job step settled
  | .onFinally true => UpTo c s events job job.count
  | .onCatch true => UpTo c s events job job.count
  | _ => True

/-- The height belongs to a job that is in the queue or under way. -/
def Open (now : BodyDownload) (height : Nat) : Prop :=
  ∃ job, job.first ≤ height ∧ height ≤ job.last ∧
    (job ∈ now.jobQueue ∨ job ∈ now.tasks.map Prod.fst)

/-- After some events: `inProgress` counts the jobs that have not come to `finally`, and each missing
height is stored or belongs to a job. -/
structure Inv (known target : Nat) (now : BodyDownload) : Prop where
  inProgress : now.inProgress = now.tasks.countP fun task => task.2.counts
  tasks : ∀ task ∈ now.tasks, TaskOk c s events task.1 task.2
  heights : ∀ height, known < height → height ≤ target →
    Stored c s events height ∨ Open now height
  resolved : now.resolved = true → ∀ height, known < height → height ≤ target →
    Stored c s events height

end Invariant

section Later

variable {c : Crypto} {s : BodyDownload} {events : List Event} {event : Event} {job : Job}

theorem UpTo.later {i : Nat} (h : UpTo c s events job i) : UpTo c s (events ++ [event]) job i :=
  fun height hfirst hlast => (h height hfirst hlast).later

theorem upTo_zero : UpTo c s events job 0 := by
  intro height hfirst hlast
  omega

theorem UpTo.succ {i : Nat} (h : UpTo c s events job i) (hnext : Stored c s events (job.first + i)) :
    UpTo c s events job (i + 1) := by
  intro height hfirst hlast
  by_cases heq : height = job.first + i
  · subst heq
    exact hnext
  · exact h height hfirst (by omega)

theorem StepOk.later {step : JobStep} (h : StepOk c s events job step) :
    StepOk c s (events ++ [event]) job step := by
  cases step with
  | fetchBodies => trivial
  | getHeader bodies i => exact UpTo.later h
  | setBody bodies i body => exact ⟨h.1.later, h.2.later⟩

theorem SettledOk.later {step : JobStep} {settled : Settled} (h : SettledOk c s events job step settled) :
    SettledOk c s (events ++ [event]) job step settled := by
  cases step with
  | fetchBodies => trivial
  | getHeader bodies i =>
      cases settled with
      | header header => exact Seen.later h
      | bodies | done | rejected => trivial
  | setBody bodies i body =>
      cases settled with
      | done => exact Stored.later h
      | bodies | header | rejected => trivial

theorem TaskOk.later {state : TaskState} (h : TaskOk c s events job state) :
    TaskOk c s (events ++ [event]) job state := by
  cases state with
  | starting => trivial
  | awaits step => exact StepOk.later h
  | resumes step settled => exact ⟨h.1.later, h.2.later⟩
  | onFinally ok =>
      cases ok with
      | true => exact UpTo.later h
      | false => trivial
  | onCatch ok =>
      cases ok with
      | true => exact UpTo.later h
      | false => trivial

/-- The next turn of the loop over the bodies of a job. -/
theorem taskOk_turn {i : Nat} (bodies : List BlockBody) (h : UpTo c s events job i) :
    TaskOk c s events job (job.turn bodies i) := by
  rw [Job.turn]
  split
  · exact h
  · intro height hfirst hlast
    exact h height hfirst (by omega)

/-- What a job goes on with. -/
theorem taskOk_resume {step : JobStep} {settled : Settled} (hstep : StepOk c s events job step)
    (hsettled : SettledOk c s events job step settled) :
    TaskOk c s events job (step.resume c job settled) := by
  cases step with
  | fetchBodies =>
      cases settled with
      | bodies bodies => exact taskOk_turn bodies upTo_zero
      | header | done | rejected => trivial
  | getHeader bodies i =>
      cases settled with
      | header header =>
          rw [JobStep.resume]
          split
          · rename_i body hbody
            -- the body goes on to be stored only when it fits to the header
            cases hvalid : body.validate c header with
            | ok _ => exact ⟨hstep, header, hsettled, hvalid⟩
            | error e => trivial
          · trivial
      | bodies | done | rejected => trivial
  | setBody bodies i body =>
      cases settled with
      | done => exact taskOk_turn bodies (hstep.1.succ hsettled)
      | bodies | header | rejected => trivial

/-- What a job awaits has happened: what is read is stored now, and what is written was checked. -/
theorem settledOk_of_settle {step : JobStep} {reply : Reply} {write : Option Write} {settled : Settled}
    (hstep : StepOk c s events job step)
    (hsettle : step.settle (run c s events).store job reply = some (write, settled))
    (hwritten : written c (run c s events) event = write) :
    SettledOk c s (events ++ [event]) job step settled := by
  cases step with
  | fetchBodies => trivial
  | getHeader bodies i =>
      cases reply with
      | done =>
          cases hheader : (run c s events).store.getHeader (job.first + i) with
          | ok header =>
              simp only [JobStep.settle, hheader] at hsettle
              cases hsettle
              exact (seen_now hheader).later
          | error e =>
              simp only [JobStep.settle, hheader] at hsettle
              cases hsettle
              trivial
      | failed =>
          cases hsettle
          trivial
      | consentedHeader | headers | bodies => cases hsettle
  | setBody bodies i body =>
      cases reply with
      | done =>
          -- the body was checked before it was given to `setBody`
          cases hsettle
          exact stored_now hwritten hstep.2
      | failed =>
          cases hsettle
          trivial
      | consentedHeader | headers | bodies => cases hsettle

end Later

/-! ## One event -/

section Step

variable {c : Crypto} {s now now' : BodyDownload} {events : List Event} {event : Event}
  {known target : Nat}

/-- What is to be shown of an event for the invariant to hold after it. -/
theorem Inv.next (h : Inv c s events known target now)
    (hcount : now'.inProgress = now'.tasks.countP fun task => task.2.counts)
    (htasks : ∀ task ∈ now'.tasks, TaskOk c s (events ++ [event]) task.1 task.2)
    (hopen : ∀ height, Open now height → Stored c s (events ++ [event]) height ∨ Open now' height)
    (hresolved : now'.resolved = true → now.resolved = true ∨ ∀ height, ¬ Open now height) :
    Inv c s (events ++ [event]) known target now' := by
  refine ⟨hcount, htasks, ?_, ?_⟩
  · intro height hknown htarget
    rcases h.heights height hknown htarget with hstored | hheight
    · exact .inl hstored.later
    · exact hopen height hheight
  · intro hnow height hknown htarget
    rcases hresolved hnow with hbefore | hnone
    · exact (h.resolved hbefore height hknown htarget).later
    · exact ((h.heights height hknown htarget).resolve_right (hnone height)).later

theorem Inv.tasks_later (h : Inv c s events known target now) :
    ∀ task ∈ now.tasks, TaskOk c s (events ++ [event]) task.1 task.2 :=
  fun task htask => (h.tasks task htask).later

/-- An event that changes neither the queue nor the tasks. -/
theorem Inv.same (h : Inv c s events known target now) (hqueue : now'.jobQueue = now.jobQueue)
    (hprogress : now'.inProgress = now.inProgress) (htasks : now'.tasks = now.tasks)
    (hresolved : now'.resolved = true → now.resolved = true ∨ ∀ height, ¬ Open now height) :
    Inv c s (events ++ [event]) known target now' := by
  refine h.next ?_ ?_ ?_ hresolved
  · rw [hprogress, htasks]
    exact h.inProgress
  · rw [htasks]
    exact h.tasks_later
  · intro height hheight
    rw [Open, hqueue, htasks]
    exact .inr hheight

theorem split_of_getElem {α : Type} {l : List α} {i : Nat} {a : α} (h : l[i]? = some a) :
    ∃ before after, l = before ++ a :: after ∧ (∀ b, l.set i b = before ++ b :: after) ∧
      l.eraseIdx i = before ++ after := by
  rcases List.getElem?_eq_some_iff.mp h with ⟨hlt, rfl⟩
  refine ⟨l.take i, l.drop (i + 1), ?_, ?_, ?_⟩
  · rw [List.getElem_cons_drop, List.take_append_drop]
  · intro b
    rw [List.set_eq_take_append_cons_drop, if_pos hlt]
  · exact List.eraseIdx_eq_take_drop_succ l i

/-- A job goes on. -/
theorem Inv.set (h : Inv c s events known target now) {i inProgress : Nat} {job : Job}
    {state state' : TaskState} (htask : now.tasks[i]? = some (job, state))
    (hok : TaskOk c s (events ++ [event]) job state')
    (hcount : inProgress + (if state.counts then 1 else 0) =
      now.inProgress + if state'.counts then 1 else 0) :
    Inv c s (events ++ [event]) known target
      { now with tasks := now.tasks.set i (job, state'), inProgress } := by
  rcases split_of_getElem htask with ⟨before, after, htasks, hset, -⟩
  have hbefore := h.inProgress
  have hlater := @Inv.tasks_later _ _ _ _ event _ _ h
  rw [htasks] at hbefore hlater
  refine h.next ?_ ?_ ?_ .inl
  · -- `hcount` accounts for the one task that has changed
    simp only [List.countP_append, List.countP_cons] at hbefore
    simp only [hset, List.countP_append, List.countP_cons]
    omega
  · intro task hmem
    simp only [hset, List.mem_append, List.mem_cons] at hmem
    rcases hmem with hold | rfl | hold
    · exact hlater task (List.mem_append_left _ hold)
    · exact hok
    · exact hlater task (List.mem_append_right _ (.tail _ hold))
  · rintro height ⟨other, hfirst, hlast, hmem⟩
    refine .inr ⟨other, hfirst, hlast, ?_⟩
    rw [htasks, List.map_append, List.map_cons] at hmem
    simp only [hset, List.map_append, List.map_cons]
    exact hmem

/-- The `catch` of a job: it is in the queue again, or all its bodies are stored. -/
theorem Inv.erase (h : Inv c s events known target now) {i : Nat} {job : Job} {ok : Bool}
    (htask : now.tasks[i]? = some (job, .onCatch ok)) :
    Inv c s (events ++ [event]) known target
      { now with
        tasks := now.tasks.eraseIdx i
        jobQueue := if ok then now.jobQueue else now.jobQueue ++ [job] } := by
  rcases split_of_getElem htask with ⟨before, after, htasks, -, herase⟩
  have hbefore := h.inProgress
  have hlater := @Inv.tasks_later _ _ _ _ event _ _ h
  rw [htasks] at hbefore hlater
  have hjob := hlater (job, .onCatch ok) (List.mem_append_right _ (.head _))
  refine h.next ?_ ?_ ?_ .inl
  · rw [List.countP_append, List.countP_cons_of_neg Bool.false_ne_true] at hbefore
    rw [herase, List.countP_append]
    exact hbefore
  · intro task hmem
    rw [herase] at hmem
    refine hlater task ?_
    rcases List.mem_append.mp hmem with hold | hold
    · exact List.mem_append_left _ hold
    · exact List.mem_append_right _ (.tail _ hold)
  · rintro height ⟨other, hfirst, hlast, hmem⟩
    rw [htasks, List.map_append, List.map_cons, List.mem_append, List.mem_cons] at hmem
    rw [Open]
    simp only [herase, List.map_append, List.mem_append]
    rcases hmem with hqueue | hold | hother | hold
    -- a height of another job stays where it is; one of this job is stored, or queued again
    · refine .inr ⟨other, hfirst, hlast, .inl ?_⟩
      cases ok with
      | false => exact List.mem_append_left _ hqueue
      | true => exact hqueue
    · exact .inr ⟨other, hfirst, hlast, .inr (.inl hold)⟩
    · obtain rfl : other = job := hother
      cases ok with
      | false => exact .inr ⟨other, hfirst, hlast, .inl (List.mem_append_right _ (.head _))⟩
      | true =>
          have hall : UpTo c s (events ++ [event]) other other.count := hjob
          refine .inl (hall height hfirst ?_)
          rw [Job.count]
          omega
    · exact .inr ⟨other, hfirst, hlast, .inr (.inr hold)⟩

theorem counts_of_not_pending {state : TaskState} (h : state.pending = false) :
    state.counts = true := by
  cases state with
  | onCatch ok => cases h
  | starting | awaits | resumes | onFinally => rfl

/-- A job that goes on has not come to `catch`. -/
theorem counts_resume {step : JobStep} {job : Job} {settled : Settled} :
    (step.resume c job settled).counts = true := by
  have hturn : ∀ bodies i, (job.turn bodies i).counts = true := by
    intro bodies i
    rw [Job.turn]
    split <;> rfl
  unfold JobStep.resume
  split
  · exact hturn _ _
  · split
    · split <;> rfl
    · rfl
  · exact hturn _ _
  · rfl

/-- A turn of the loop: it stops, waits, puts the job back or starts it. -/
theorem Inv.fetchNext (h : Inv c s events known target now) (hdrained : now.drained = true)
    {job : Job} (idle : Bool) (hgives : now.gives job = true) :
    Inv c s (events ++ [event]) known target { now.fetchNext job idle with scheduled := false } := by
  simp only [drained, Bool.and_eq_true, List.all_eq_true, Bool.not_eq_true'] at hdrained
  rw [BodyDownload.fetchNext]
  split
  · rename_i hqueue
    split
    · rename_i hprogress
      refine h.same rfl rfl rfl fun _ => .inr ?_
      -- nothing is in the queue, and nothing is under way either
      rintro height ⟨other, -, -, hmem⟩
      rw [hqueue] at hmem
      rcases List.mem_map.mp (hmem.resolve_left List.not_mem_nil) with ⟨task, htask, rfl⟩
      have hcounts := counts_of_not_pending (hdrained.2 task htask)
      have hzero := h.inProgress
      rw [hprogress, eq_comm, List.countP_eq_zero] at hzero
      exact hzero task htask hcounts
    · exact h.same rfl rfl rfl .inl
  · rename_i hqueue
    have hmember : job ∈ now.jobQueue := by
      simp only [gives, Bool.or_eq_true, Bool.and_eq_true, List.isEmpty_iff, List.contains_iff_mem]
        at hgives
      exact (hgives.resolve_left hqueue).1
    split
    · refine h.next ?_ ?_ ?_ .inl
      · rw [List.countP_append, ← h.inProgress]
        rfl
      · intro task hmem
        rcases List.mem_append.mp hmem with hold | hnew
        · exact h.tasks_later task hold
        · rw [List.mem_singleton.mp hnew]
          trivial
      · rintro height ⟨other, hfirst, hlast, hmem⟩
        refine .inr ⟨other, hfirst, hlast, ?_⟩
        rw [List.map_append, List.mem_append]
        -- a job that leaves the queue is a task from then on
        by_cases hother : other = job
        · subst hother
          exact .inr (.inr (.head _))
        · rcases hmem with hold | hold
          · exact .inl ((List.mem_erase_of_ne hother).mpr hold)
          · exact .inr (.inl hold)
    · exact h.same rfl rfl rfl .inl

/-- Every event keeps the invariant, apart from the store. -/
theorem Inv.advance (h : Inv c s events known target (run c s events)) (event : Event) :
    Inv c s (events ++ [event]) known target ((run c s events).advance c event).2 := by
  cases event with
  | turn job idle =>
      rw [BodyDownload.advance]
      split
      · rename_i hturn
        simp only [Bool.and_eq_true] at hturn
        exact h.fetchNext hturn.1.2 idle hturn.2
      · exact h.same rfl rfl rfl .inl
  | turnEnded =>
      rw [BodyDownload.advance]
      split
      · exact h.same rfl rfl rfl .inl
      · exact h.same rfl rfl rfl .inl
  | settle i reply =>
      cases htask : (run c s events).tasks[i]? with
      | none =>
          simp only [BodyDownload.advance, htask]
          exact h.same rfl rfl rfl .inl
      | some task =>
          rcases task with ⟨job, state⟩
          have hmember := h.tasks _ (List.mem_of_getElem? htask)
          cases state with
          | awaits step =>
              cases hsettle : step.settle (run c s events).store job reply with
              | none =>
                  simp only [BodyDownload.advance, htask, hsettle]
                  exact h.same rfl rfl rfl .inl
              | some result =>
                  rcases result with ⟨write, settled⟩
                  have hwritten : written c (run c s events) (.settle i reply) = write := by
                    simp only [written, BodyDownload.advance, htask, hsettle]
                  simp only [BodyDownload.advance, htask, hsettle]
                  refine h.set htask ⟨StepOk.later hmember, ?_⟩ rfl
                  exact settledOk_of_settle hmember hsettle hwritten
          | starting | resumes | onFinally | onCatch =>
              simp only [BodyDownload.advance, htask]
              exact h.same rfl rfl rfl .inl
  | callback i =>
      cases htask : (run c s events).tasks[i]? with
      | none =>
          simp only [BodyDownload.advance, htask]
          exact h.same rfl rfl rfl .inl
      | some task =>
          rcases task with ⟨job, state⟩
          have hmember := h.tasks _ (List.mem_of_getElem? htask)
          simp only [BodyDownload.advance, htask, call]
          cases state with
          | starting => exact h.set htask trivial rfl
          | awaits step => exact h.same rfl rfl rfl .inl
          | resumes step settled =>
              have hok := taskOk_resume hmember.1 hmember.2
              refine h.set htask hok.later ?_
              rw [counts_resume]
              rfl
          | onFinally ok =>
              -- the job itself counts, so `inProgress` does not fall below zero
              have hcounted : 0 < (run c s events).inProgress := by
                rw [h.inProgress]
                exact List.countP_pos_iff.mpr ⟨_, List.mem_of_getElem? htask, rfl⟩
              refine h.set htask ?_ (Nat.sub_add_cancel hcounted)
              cases ok with
              | true => exact UpTo.later hmember
              | false => trivial
          | onCatch ok => exact h.erase htask
  | write write => exact h.same rfl rfl rfl .inl

theorem Inv.step (h : Inv c s events known target (run c s events)) (event : Event) :
    Inv c s (events ++ [event]) known target (run c s (events ++ [event])) := by
  have hnext := h.advance event
  rw [run_append]
  -- the invariant speaks of the past and not of the store as it is now
  exact ⟨hnext.inProgress, hnext.tasks, hnext.heights, hnext.resolved⟩

/-- Before the first turn each missing height belongs to a job in the queue. -/
theorem inv_catchUpBodies {options : SynchronizerOptions} {store : BlockStore}
    (h : catchUpBodies options store target = some s) : Inv c s [] store.getHeight target s := by
  rw [catchUpBodies] at h
  split at h
  · cases h
  · rename_i hends
    cases h
    refine ⟨rfl, nofun, ?_, nofun⟩
    intro height hknown htarget
    -- with nothing to fetch at a time the split would not have ended
    have hmax : 1 ≤ options.maxFetchBodies := by
      by_contra hzero
      exact hends ⟨by omega, by omega⟩
    rcases exists_job hmax (le_refl target) hknown htarget with ⟨job, hjob, hfirst, hlast⟩
    exact .inr ⟨job, hfirst, hlast, .inl hjob⟩

theorem inv_run (h : Inv c s [] known target s) (events : List Event) :
    Inv c s events known target (run c s events) := by
  induction events using List.reverseRecOn with
  | nil => exact h
  | append_singleton events event ih => exact ih.step event

end Step

/-- When the promise of `catchUpBodies` has resolved, a body was put into the store at each missing
height that was checked against a header stored there. -/
theorem bodies_complete (c : Crypto) (options : SynchronizerOptions) (store : BlockStore)
    (target : Nat) (s : BodyDownload) (events : List Event)
    (hstart : catchUpBodies options store target = some s)
    (hresolved : (run c s events).resolved = true) :
    ∀ height, store.getHeight < height → height ≤ target → Stored c s events height :=
  (inv_run (inv_catchUpBodies hstart) events).resolved hresolved

/-! ### One missing body -/

/-- The store has the header of the first block, and not its body. -/
def headerStore : BlockStore := BlockStore.empty.setHeader 1 sampleGenesis.header

/-- The remote node first sends nothing, and the job is put back into the queue. -/
def retriedEvents : List Event :=
  [.turn ⟨1, 1⟩ true, .callback 0, .turnEnded, .settle 0 (.bodies []), .callback 0, .settle 0 .done,
    .callback 0, .callback 0, .callback 0, .turn ⟨1, 1⟩ true, .turnEnded, .callback 0,
    .settle 0 (.bodies [sampleGenesis.body]), .callback 0, .settle 0 .done, .callback 0,
    .settle 0 .done, .callback 0, .callback 0, .callback 0, .turn ⟨1, 1⟩ false]

theorem bodies_complete_sample :
    ∃ s, catchUpBodies narrowOptions headerStore 1 = some s ∧
      Stored .transparent s retriedEvents 1 := by
  refine ⟨_, rfl, ?_⟩
  exact bodies_complete .transparent narrowOptions headerStore 1 _ retriedEvents rfl
    (by decide +kernel) 1 (by decide) (by decide)

/-! ## The steps of a job -/

/-- What a job awaits, and how it goes on with it, is what `JobStep.next` takes in one piece, of a store
that does not fail. -/
theorem settle_resume (c : Crypto) (store : BlockStore) (job : Job) (step : JobStep) (reply : Reply)
    (hstore : reply = .failed → step = .fetchBodies) :
    step.next c store job reply =
      (step.settle store job reply).map fun result =>
        (result.1, match step.resume c job result.2 with
          | .awaits step => some (some step)
          | .onFinally true => some none
          | _ => none) := by
  cases step with
  | fetchBodies =>
      cases reply with
      | bodies bodies =>
          have hturn : job.turn bodies 0 = .awaits (.getHeader bodies 0) := if_pos (Nat.succ_pos _)
          simp only [JobStep.next, JobStep.settle, Option.map_some, JobStep.resume, hturn]
      | done | consentedHeader | headers | failed => rfl
  | getHeader bodies i =>
      cases reply with
      | failed => cases hstore rfl
      | consentedHeader | headers | bodies => rfl
      | done =>
          simp only [JobStep.next, JobStep.settle]
          -- the read may fail, the body may be missing or may not fit to the header
          cases store.getHeader (job.first + i) with
          | error e => rfl
          | ok header =>
              simp only [Option.map_some, JobStep.resume]
              cases bodies[i]? with
              | none => rfl
              | some body =>
                  simp only
                  cases body.validate c header with
                  | ok _ => rfl
                  | error e => rfl
  | setBody bodies i body =>
      cases reply with
      | failed => cases hstore rfl
      | consentedHeader | headers | bodies => rfl
      | done =>
          simp only [JobStep.next, JobStep.settle, Option.map_some, JobStep.resume, Job.turn]
          -- the last body ends the job, any other one is followed by the next header
          by_cases hlt : i + 1 < job.count
          · simp only [if_pos hlt]
          · simp only [if_neg hlt]

end BodyDownload

end ChainCore
end UniqysKit
