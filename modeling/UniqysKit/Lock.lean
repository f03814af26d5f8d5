import Mathlib.Data.List.Nodup
import Mathlib.Data.List.Perm.Basic
import UniqysKit.Library.Runs

/-!
# The read/write lock

`ReadWriteLock` of `packages/lock`, with `Mutex` at the end.  Two locks share one state.  What is
queued is a request to lock again, and what is let in starts at the next tick and unlocks once, at any
time after that.

`Correct` says what the lock is for.  The reason that no request is forgotten is in `waiting` and
`readersWait`: readers wait for a writer that holds the lock or is queued, and a writer that is queued
for someone who holds the lock and will hand it over.
-/

namespace UniqysKit
namespace Lock

open Library

/-! ## The two locks -/

inductive Side
  | read
  | write
  deriving DecidableEq

/-- A task that was given to a lock, with the number of its request. -/
structure Task where
  side : Side
  number : Nat
  deriving DecidableEq

namespace Task

def isReader (task : Task) : Bool := task.side = .read

def isWriter (task : Task) : Bool := task.side = .write

end Task

/-- `LockState`, with a task in place of the closure that locks for it, and the tasks that
`process.nextTick` has not run yet. `granted` are all tasks that were let in. -/
structure LockState where
  readers : Nat
  locked : Bool
  writeQueue : List Task
  readQueue : List Task
  scheduled : List Task
  granted : List Task

namespace LockState

def new : LockState := ⟨0, false, [], [], [], []⟩

/-- `process.nextTick(() => task(…))`. -/
def nextTick (task : Task) (state : LockState) : LockState :=
  { state with scheduled := state.scheduled ++ [task], granted := state.granted ++ [task] }

end LockState

def ReadLock.lock (task : Task) (state : LockState) : LockState :=
  if state.locked ∨ state.writeQueue.length > 0 then
    { state with readQueue := state.readQueue ++ [task] }
  else { state with readers := state.readers + 1 }.nextTick task

def WriteLock.lock (task : Task) (state : LockState) : LockState :=
  if state.locked ∨ state.readers > 0 then
    { state with writeQueue := state.writeQueue ++ [task] }
  else { state with locked := true }.nextTick task

def ReadLock.unlock (state : LockState) : LockState :=
  let state := { state with readers := state.readers - 1 }
  if state.readers > 0 then state
  else
    match state.writeQueue with
    | writer :: writeQueue => WriteLock.lock writer { state with writeQueue }
    | [] => state

def WriteLock.unlock (state : LockState) : LockState :=
  let state := { state with locked := false }
  match state.writeQueue with
  | writer :: writeQueue => WriteLock.lock writer { state with writeQueue }
  | [] =>
      let readers := state.readQueue
      readers.foldl (fun state reader => ReadLock.lock reader state) { state with readQueue := [] }

/-- The lock of the side. -/
def lock (task : Task) : LockState → LockState :=
  match task.side with
  | .read => ReadLock.lock task
  | .write => WriteLock.lock task

@[inherit_doc lock]
def unlock (task : Task) : LockState → LockState :=
  match task.side with
  | .read => ReadLock.unlock
  | .write => WriteLock.unlock

/-! ## Runs -/

structure System where
  state : LockState
  running : List Task
  requested : List Task

inductive Event
  /-- A lock is asked for. -/
  | lock (side : Side)
  /-- A task that was let in starts. -/
  | start (task : Task)
  /-- A task that runs unlocks, and is done. -/
  | unlock (task : Task)

namespace System

def new : System := ⟨.new, [], []⟩

/-- An event that cannot happen does nothing. -/
def step (system : System) : Event → System
  | .lock side =>
      let task := ⟨side, system.requested.length⟩
      { system with
        state := Lock.lock task system.state
        requested := system.requested ++ [task] }
  | .start task =>
      if task ∈ system.state.scheduled then
        { system with
          state := { system.state with scheduled := system.state.scheduled.erase task }
          running := system.running ++ [task] }
      else system
  | .unlock task =>
      if task ∈ system.running then
        { system with
          state := Lock.unlock task system.state
          running := system.running.erase task }
      else system

/-- The tasks that hold the lock. -/
def holders (system : System) : List Task := system.state.scheduled ++ system.running

/-- What the lock is for. -/
structure Correct (system : System) : Prop where
  /-- A writer has the lock for itself. -/
  exclusive : ∀ writer ∈ system.holders, writer.isWriter → system.holders = [writer]
  /-- Each request is let in once or in a queue, and none of them twice. -/
  once : (system.state.granted ++ (system.state.readQueue ++ system.state.writeQueue)).Perm
    system.requested ∧ system.requested.Nodup
  /-- Writers are let in in the order in which they asked, and so are those in the queue. -/
  inOrder : system.state.granted.filter Task.isWriter ++ system.state.writeQueue =
    system.requested.filter Task.isWriter
  /-- Nobody waits for nobody. -/
  idle : system.holders = [] → system.state.readQueue = [] ∧ system.state.writeQueue = []

end System

/-! ## What a request and an unlock do -/

section Cases

variable {state : LockState} {task : Task}

theorem ReadLock.lock_cases (task : Task) (state : LockState) :
    (state.locked ∨ state.writeQueue ≠ []) ∧
      ReadLock.lock task state = { state with readQueue := state.readQueue ++ [task] } ∨
    (state.locked = false ∧ state.writeQueue = []) ∧
      ReadLock.lock task state = { state with
        readers := state.readers + 1
        scheduled := state.scheduled ++ [task]
        granted := state.granted ++ [task] } := by
  unfold ReadLock.lock
  split
  · rename_i hwait
    exact .inl ⟨hwait.imp_right List.length_pos_iff.mp, rfl⟩
  · rename_i hfree
    rw [not_or, Bool.not_eq_true, gt_iff_lt, List.length_pos_iff, not_not] at hfree
    exact .inr ⟨hfree, rfl⟩

theorem WriteLock.lock_cases (task : Task) (state : LockState) :
    (state.locked ∨ 0 < state.readers) ∧
      WriteLock.lock task state = { state with writeQueue := state.writeQueue ++ [task] } ∨
    (state.locked = false ∧ state.readers = 0) ∧
      WriteLock.lock task state = { state with
        locked := true
        scheduled := state.scheduled ++ [task]
        granted := state.granted ++ [task] } := by
  unfold WriteLock.lock
  split
  · rename_i hwait
    exact .inl ⟨hwait, rfl⟩
  · rename_i hfree
    rw [not_or, Bool.not_eq_true, gt_iff_lt, Nat.pos_iff_ne_zero, not_not] at hfree
    exact .inr ⟨hfree, rfl⟩

/-- The first writer of the queue is let in when nobody holds the lock. -/
theorem WriteLock.lock_of_free (hlocked : state.locked = false) (hreaders : state.readers = 0) :
    WriteLock.lock task state = { state with
      locked := true
      scheduled := state.scheduled ++ [task]
      granted := state.granted ++ [task] } := by
  rcases WriteLock.lock_cases task state with ⟨hwait, -⟩ | ⟨-, hlock⟩
  · rcases hwait with hwait | hwait
    · rw [hlocked] at hwait
      cases hwait
    · omega
  · exact hlock

/-- All readers of a queue are let in when no writer is there. -/
theorem foldl_lock (readers : List Task) (state : LockState) (hlocked : state.locked = false)
    (hqueue : state.writeQueue = []) :
    readers.foldl (fun state reader => ReadLock.lock reader state) state = { state with
      readers := state.readers + readers.length
      scheduled := state.scheduled ++ readers
      granted := state.granted ++ readers } := by
  induction readers generalizing state with
  | nil => simp
  | cons reader readers ih =>
      rcases ReadLock.lock_cases reader state with ⟨hwait, -⟩ | ⟨-, hlock⟩
      · exact absurd hwait (by simp [hlocked, hqueue])
      · rw [List.foldl_cons, hlock]
        refine (ih _ ?_ ?_).trans ?_
        · exact hlocked
        · exact hqueue
        · simp only [List.append_assoc, List.singleton_append, List.length_cons]
          congr 1
          omega

/-- A reader that unlocks is not the last one, or hands over to the first writer. -/
theorem ReadLock.unlock_cases (hlocked : state.locked = false) (hreaders : 0 < state.readers) :
    (1 < state.readers ∨ state.writeQueue = []) ∧
      ReadLock.unlock state = { state with readers := state.readers - 1 } ∨
    ∃ writer writeQueue, state.readers = 1 ∧ state.writeQueue = writer :: writeQueue ∧
      ReadLock.unlock state = { state with
        readers := 0
        locked := true
        writeQueue
        scheduled := state.scheduled ++ [writer]
        granted := state.granted ++ [writer] } := by
  simp only [ReadLock.unlock]
  split
  · exact .inl ⟨.inl (by omega), rfl⟩
  · have hlast : state.readers = 1 := by omega
    cases hqueue : state.writeQueue with
    | nil => exact .inl ⟨.inr rfl, rfl⟩
    | cons writer writeQueue =>
        refine .inr ⟨writer, writeQueue, hlast, rfl, ?_⟩
        simp only [hlast, Nat.sub_self]
        exact WriteLock.lock_of_free hlocked rfl

/-- A writer that unlocks hands over to the next writer, or to all readers. -/
theorem WriteLock.unlock_cases (hreaders : state.readers = 0) :
    (∃ writer writeQueue, state.writeQueue = writer :: writeQueue ∧
      WriteLock.unlock state = { state with
        locked := true
        writeQueue
        scheduled := state.scheduled ++ [writer]
        granted := state.granted ++ [writer] }) ∨
    state.writeQueue = [] ∧
      WriteLock.unlock state = { state with
        locked := false
        readers := state.readQueue.length
        readQueue := []
        scheduled := state.scheduled ++ state.readQueue
        granted := state.granted ++ state.readQueue } := by
  simp only [WriteLock.unlock]
  cases hqueue : state.writeQueue with
  -- no writer waits, and all the readers get the lock together
  | nil =>
      refine .inr ⟨rfl, ?_⟩
      refine (foldl_lock _ _ ?_ ?_).trans ?_
      · rfl
      · rfl
      · simp only [hreaders, Nat.zero_add]
  | cons writer writeQueue =>
      refine .inl ⟨writer, writeQueue, rfl, ?_⟩
      exact WriteLock.lock_of_free rfl hreaders

end Cases

/-! ## The invariant -/

section Invariant

/-- Fresh numbers: each request has its own. -/
def Numbered (requested : List Task) : Prop :=
  requested.Nodup ∧ ∀ task ∈ requested, task.number < requested.length

structure Inv (state : LockState) (running requested : List Task) : Prop where
  readers : state.readers = (state.scheduled ++ running).countP Task.isReader
  writers : (state.scheduled ++ running).countP Task.isWriter = if state.locked then 1 else 0
  exclusive : state.locked → state.readers = 0
  waiting : state.locked = false → state.writeQueue ≠ [] → 0 < state.readers
  readersWait : state.locked = false → state.readQueue ≠ [] → state.writeQueue ≠ []
  onlyReaders : ∀ task ∈ state.readQueue, task.isReader
  onlyWriters : ∀ task ∈ state.writeQueue, task.isWriter
  perm : (state.granted ++ (state.readQueue ++ state.writeQueue)).Perm requested
  numbered : Numbered requested
  inOrder : state.granted.filter Task.isWriter ++ state.writeQueue = requested.filter Task.isWriter

variable {state : LockState} {running requested : List Task} {task : Task} {side : Side}

theorem Task.isWriter_of_isReader (h : task.isReader) : task.isWriter = false := by
  simp only [Task.isReader, Task.isWriter, decide_eq_true_eq] at h ⊢
  rw [h]
  decide

theorem Task.isReader_of_isWriter (h : task.isWriter) : task.isReader = false := by
  simp only [Task.isReader, Task.isWriter, decide_eq_true_eq] at h ⊢
  rw [h]
  decide

theorem Numbered.push (h : Numbered requested) (side : Side) :
    Numbered (requested ++ [⟨side, requested.length⟩]) := by
  have hnew : (⟨side, requested.length⟩ : Task) ∉ requested := fun hmem =>
    Nat.lt_irrefl _ (h.2 _ hmem)
  refine ⟨h.1.append (List.nodup_singleton _) (by simpa using hnew), ?_⟩
  intro task hmem
  rw [List.length_append, List.length_singleton]
  rcases List.mem_append.mp hmem with hold | hnew
  · have hlt := h.2 task hold
    omega
  · rw [List.mem_singleton.mp hnew]
    exact Nat.lt_succ_self _

/-- A task in one of three places is in one of them. -/
theorem perm_push (granted readQueue writeQueue : List Task) (task : Task) :
    (granted ++ (readQueue ++ [task] ++ writeQueue)).Perm
      (granted ++ (readQueue ++ writeQueue) ++ [task]) := by
  rw [List.append_assoc granted]
  refine List.Perm.append_left granted ?_
  rw [List.append_assoc, List.append_assoc]
  exact List.Perm.append_left readQueue List.perm_append_comm

theorem perm_grant (granted readQueue writeQueue : List Task) (task : Task) :
    (granted ++ [task] ++ (readQueue ++ writeQueue)).Perm
      (granted ++ (readQueue ++ writeQueue) ++ [task]) := by
  rw [List.append_assoc, List.append_assoc]
  exact List.Perm.append_left granted List.perm_append_comm

theorem Inv.lock_read (h : Inv state running requested) (htask : task.isReader)
    (hnumbered : Numbered (requested ++ [task])) :
    Inv (ReadLock.lock task state) running (requested ++ [task]) := by
  have hwriter := Task.isWriter_of_isReader htask
  have hfilter : (requested ++ [task]).filter Task.isWriter = requested.filter Task.isWriter := by
    simp [List.filter_append, hwriter]
  rcases ReadLock.lock_cases task state with ⟨hwait, hlock⟩ | ⟨⟨hlocked, hqueue⟩, hlock⟩
  · -- the reader waits, so a writer holds the lock or waits for it
    rw [hlock]
    refine ⟨h.readers, h.writers, h.exclusive, h.waiting, ?_, ?_, h.onlyWriters, ?_, hnumbered,
      h.inOrder.trans hfilter.symm⟩
    · intro hlocked _
      -- if no writer holds the lock, one waits for it
      rcases hwait with hwait | hwait
      · exact absurd hwait (by simp [show state.locked = false from hlocked])
      · exact hwait
    · intro other hmem
      rcases List.mem_append.mp hmem with hold | hnew
      · exact h.onlyReaders other hold
      · rw [List.mem_singleton.mp hnew]
        exact htask
    · exact (perm_push _ _ _ _).trans (h.perm.append_right _)
  · -- the reader joins the others
    rw [hlock]
    have hreaders := h.readers
    have hwriters := h.writers
    simp only [List.countP_append] at hreaders hwriters
    refine ⟨?_, ?_, ?_, ?_, h.readersWait, h.onlyReaders, h.onlyWriters, ?_, hnumbered, ?_⟩
    · simp only [List.countP_append, List.countP_singleton, htask, if_true]
      omega
    · simp only [List.countP_append, List.countP_singleton, hwriter, Bool.false_eq_true, if_false]
      rw [← hwriters]
      omega
    · intro htrue
      exact absurd htrue (by simp [hlocked])
    · intro _ hne
      exact absurd hqueue hne
    · exact (perm_grant _ _ _ _).trans (h.perm.append_right _)
    · rw [hfilter, ← h.inOrder, List.filter_append]
      simp [hwriter]

theorem Inv.lock_write (h : Inv state running requested) (htask : task.isWriter)
    (hnumbered : Numbered (requested ++ [task])) :
    Inv (WriteLock.lock task state) running (requested ++ [task]) := by
  have hreader := Task.isReader_of_isWriter htask
  have hfilter : (requested ++ [task]).filter Task.isWriter =
      requested.filter Task.isWriter ++ [task] := by
    simp [List.filter_append, htask]
  rcases WriteLock.lock_cases task state with ⟨hwait, hlock⟩ | ⟨⟨hlocked, hzero⟩, hlock⟩
  · -- the writer waits, so somebody holds the lock
    rw [hlock]
    refine ⟨h.readers, h.writers, h.exclusive, ?_, ?_, h.onlyReaders, ?_, ?_, hnumbered, ?_⟩
    · intro hlocked _
      rcases hwait with hwait | hwait
      · exact absurd hwait (by simp [show state.locked = false from hlocked])
      · exact hwait
    · intro _ _
      exact List.append_ne_nil_of_right_ne_nil _ (List.cons_ne_nil _ _)
    · intro other hmem
      rcases List.mem_append.mp hmem with hold | hnew
      · exact h.onlyWriters other hold
      · rw [List.mem_singleton.mp hnew]
        exact htask
    · rw [← List.append_assoc state.readQueue, ← List.append_assoc state.granted]
      exact h.perm.append_right _
    · rw [hfilter, ← h.inOrder, List.append_assoc]
  · rw [hlock]
    have hreaders := h.readers
    have hwriters := h.writers
    simp only [List.countP_append, hlocked, Bool.false_eq_true, if_false] at hreaders hwriters
    -- nobody holds the lock, so no writer can be before this one
    have hqueue : state.writeQueue = [] := by
      by_contra hne
      have hpos := h.waiting hlocked hne
      omega
    refine ⟨?_, ?_, ?_, ?_, ?_, h.onlyReaders, h.onlyWriters, ?_, hnumbered, ?_⟩
    · simp only [List.countP_append, List.countP_singleton, hreader, Bool.false_eq_true, if_false]
      omega
    · simp only [List.countP_append, List.countP_singleton, htask, if_true]
      omega
    · intro _
      exact hzero
    · nofun
    · nofun
    · exact (perm_grant _ _ _ _).trans (h.perm.append_right _)
    · have hold := h.inOrder
      rw [hqueue, List.append_nil] at hold
      rw [hfilter, List.filter_append, hold, hqueue]
      simp [htask]

/-- The first writer of the queue takes over from the last task that held the lock. -/
theorem Inv.hand_over {writer : Task} {writeQueue : List Task} (h : Inv state running requested)
    (hqueue : state.writeQueue = writer :: writeQueue) {others : List Task}
    (hothers : (state.scheduled ++ others).countP Task.isReader = 0 ∧
      (state.scheduled ++ others).countP Task.isWriter = 0) :
    Inv { state with
      readers := 0
      locked := true
      writeQueue
      scheduled := state.scheduled ++ [writer]
      granted := state.granted ++ [writer] } others requested := by
  have hwriter : writer.isWriter := h.onlyWriters writer (by rw [hqueue]; exact List.mem_cons_self)
  -- nobody else holds the lock, so the writer is alone with it
  have hreader := Task.isReader_of_isWriter hwriter
  have hperm := h.perm
  have horder := h.inOrder
  rw [hqueue] at hperm horder
  simp only [List.countP_append] at hothers
  refine ⟨?_, ?_, fun _ => rfl, nofun, nofun, h.onlyReaders, ?_, ?_, h.numbered, ?_⟩
  · simp only [List.countP_append, List.countP_singleton, hreader, Bool.false_eq_true, if_false]
    omega
  · simp only [List.countP_append, List.countP_singleton, hwriter, if_true]
    omega
  · intro other hmem
    exact h.onlyWriters other (by rw [hqueue]; exact List.mem_cons_of_mem _ hmem)
  · refine List.Perm.trans ?_ hperm
    rw [List.append_assoc]
    refine List.Perm.append_left _ ?_
    exact (@List.perm_middle _ _ state.readQueue writeQueue).symm
  · rw [← horder, List.filter_append]
    simp [hwriter]

theorem Inv.unlock_read (h : Inv state running requested) (hmem : task ∈ running)
    (htask : task.isReader) : Inv (ReadLock.unlock state) (running.erase task) requested := by
  have hwriter := Task.isWriter_of_isReader htask
  have hreaders := h.readers
  have hwriters := h.writers
  have herase := fun p => (List.perm_cons_erase hmem).countP_eq p
  simp only [List.countP_append, herase, List.countP_cons, htask, hwriter, if_true,
    Bool.false_eq_true, if_false] at hreaders hwriters
  -- a reader runs, so no writer holds the lock
  have hlocked : state.locked = false := by
    by_contra htrue
    have hzero := h.exclusive (Bool.not_eq_false _ ▸ htrue)
    omega
  rw [hlocked] at hwriters
  rcases ReadLock.unlock_cases hlocked (by omega) with
    ⟨hmore, hunlock⟩ | ⟨writer, writeQueue, hone, hqueue, hunlock⟩
  · rw [hunlock]
    refine ⟨?_, ?_, ?_, ?_, h.readersWait, h.onlyReaders, h.onlyWriters, h.perm, h.numbered,
      h.inOrder⟩
    · simp only [List.countP_append]
      omega
    · simp only [List.countP_append, hlocked]
      exact hwriters
    · intro htrue
      exact absurd htrue (by simp [hlocked])
    · intro _ hne
      rcases hmore with hmore | hmore
      · exact Nat.sub_pos_of_lt hmore
      · exact absurd hmore hne
  · rw [hunlock]
    refine h.hand_over hqueue ?_
    simp only [List.countP_append]
    simp only [Bool.false_eq_true, if_false] at hwriters
    omega

theorem Inv.unlock_write (h : Inv state running requested) (hmem : task ∈ running)
    (htask : task.isWriter) : Inv (WriteLock.unlock state) (running.erase task) requested := by
  have hreader := Task.isReader_of_isWriter htask
  have hreaders := h.readers
  have hwriters := h.writers
  have herase := fun p => (List.perm_cons_erase hmem).countP_eq p
  simp only [List.countP_append, herase, List.countP_cons, htask, hreader, if_true,
    Bool.false_eq_true, if_false] at hreaders hwriters
  have hlocked : state.locked = true := by
    by_contra hfalse
    rw [Bool.not_eq_true] at hfalse
    rw [hfalse] at hwriters
    simp only [Bool.false_eq_true, if_false] at hwriters
    omega
  have hzero := h.exclusive hlocked
  simp only [hlocked, if_true] at hwriters
  rcases WriteLock.unlock_cases hzero with ⟨writer, writeQueue, hqueue, hunlock⟩ | ⟨hqueue, hunlock⟩
  · have hothers : (state.scheduled ++ running.erase task).countP Task.isReader = 0 ∧
        (state.scheduled ++ running.erase task).countP Task.isWriter = 0 := by
      simp only [List.countP_append]
      omega
    have hnext := h.hand_over hqueue hothers
    rw [hunlock]
    rw [← hzero] at hnext
    exact hnext
  · rw [hunlock]
    -- every task of the queue is a reader
    have hall : state.readQueue.countP Task.isReader = state.readQueue.length :=
      List.countP_eq_length.mpr h.onlyReaders
    have hnone : state.readQueue.countP Task.isWriter = 0 :=
      List.countP_eq_zero.mpr fun other hmem => by
        simp [Task.isWriter_of_isReader (h.onlyReaders other hmem)]
    have hperm := h.perm
    rw [hqueue, List.append_nil] at hperm
    refine ⟨?_, ?_, ?_, ?_, ?_, ?_, h.onlyWriters, ?_, h.numbered, ?_⟩
    · simp only [List.countP_append]
      omega
    · simp only [List.countP_append, Bool.false_eq_true, if_false]
      omega
    · nofun
    · intro _ hne
      exact absurd hqueue hne
    · intro _ hne
      exact absurd rfl hne
    · nofun
    · rw [hqueue]
      simpa using hperm
    · have hfilter : state.readQueue.filter Task.isWriter = [] :=
        List.filter_eq_nil_iff.mpr fun other hmem => by
          simp [Task.isWriter_of_isReader (h.onlyReaders other hmem)]
      rw [← h.inOrder, List.filter_append, hfilter, List.append_nil]

end Invariant

/-! ## All runs -/

namespace System

variable {system : System}

/-- The invariant of a system. -/
abbrev Kept (system : System) : Prop := Inv system.state system.running system.requested

theorem kept_new : new.Kept :=
  ⟨rfl, rfl, nofun, nofun, nofun, nofun, nofun, .nil, ⟨List.nodup_nil, nofun⟩, rfl⟩

theorem Kept.step (h : system.Kept) (event : Event) : (system.step event).Kept := by
  cases event with
  | lock side =>
      cases side with
      | read => exact h.lock_read rfl (h.numbered.push .read)
      | write => exact h.lock_write rfl (h.numbered.push .write)
  | start task =>
      simp only [System.step]
      split
      · rename_i hmem
        -- a task that starts held the lock before
        have hperm : (system.state.scheduled.erase task ++ (system.running ++ [task])).Perm
            (system.state.scheduled ++ system.running) := by
          rw [← List.append_assoc]
          refine List.perm_append_comm.trans ?_
          exact (List.perm_cons_erase hmem).symm.append_right system.running
        exact { h with
          readers := h.readers.trans (hperm.countP_eq _).symm
          writers := (hperm.countP_eq _).trans h.writers }
      · exact h
  | unlock task =>
      simp only [System.step]
      split
      · rename_i hmem
        cases hside : task.side with
        | read =>
            have hunlock : Lock.unlock task = ReadLock.unlock := by simp only [Lock.unlock, hside]
            simp only [hunlock]
            exact h.unlock_read hmem (by simp [Task.isReader, hside])
        | write =>
            have hunlock : Lock.unlock task = WriteLock.unlock := by simp only [Lock.unlock, hside]
            simp only [hunlock]
            exact h.unlock_write hmem (by simp [Task.isWriter, hside])
      · exact h

theorem Kept.fulfils (h : system.Kept) : system.Correct := by
  refine ⟨?_, ⟨h.perm, h.numbered.1⟩, h.inOrder, ?_⟩
  · intro writer hmem hwriter
    have hwriters := h.writers
    have hreaders := h.readers
    have hpos : 0 < system.holders.countP Task.isWriter := List.countP_pos_iff.mpr ⟨writer, hmem, hwriter⟩
    have hlocked : system.state.locked = true := by
      by_contra hfalse
      rw [if_neg hfalse] at hwriters
      exact absurd hwriters (Nat.ne_of_gt hpos)
    rw [hlocked, if_pos rfl] at hwriters
    rw [h.exclusive hlocked] at hreaders
    -- every holder is a writer, and there is one of them
    have hlength : system.holders.length = 1 := by
      have hall : system.holders.countP Task.isWriter = system.holders.length := by
        refine List.countP_eq_length.mpr ?_
        intro other hother
        have hnot := List.countP_eq_zero.mp hreaders.symm other hother
        cases hside : other.side with
        | read => exact absurd (by simp [Task.isReader, hside]) hnot
        | write => simp [Task.isWriter, hside]
      exact hall.symm.trans hwriters
    rcases List.length_eq_one_iff.mp hlength with ⟨only, honly⟩
    rw [honly] at hmem ⊢
    rw [List.mem_singleton.mp hmem]
  · intro hnone
    have hreaders := h.readers
    have hwriters := h.writers
    rw [show system.state.scheduled ++ system.running = [] from hnone] at hreaders hwriters
    have hlocked : system.state.locked = false := by
      by_contra htrue
      rw [if_pos (Bool.not_eq_false _ ▸ htrue)] at hwriters
      cases hwriters
    have hwrite : system.state.writeQueue = [] := by
      by_contra hne
      have hpos := h.waiting hlocked hne
      rw [hreaders] at hpos
      exact Nat.lt_irrefl 0 hpos
    refine ⟨?_, hwrite⟩
    by_contra hne
    exact h.readersWait hlocked hne hwrite

/-- The lock does what it is for, whatever is asked of it in whatever order, and whenever the tasks
start and unlock. -/
theorem readWriteLock_correct (events : List Event) : (events.foldl step new).Correct := by
  have hkept := @throughout _ _ step _ _ kept_new (fun _ event h => Kept.step h event) events
  exact (hkept events [] (List.append_nil events).symm).fulfils

/-- Two readers and two writers in turn: the second reader waits for the first writer. -/
example : (List.foldl step new [.lock .read, .lock .write, .lock .read, .lock .write,
    .start ⟨.read, 0⟩, .unlock ⟨.read, 0⟩, .start ⟨.write, 1⟩, .unlock ⟨.write, 1⟩,
    .start ⟨.write, 3⟩, .unlock ⟨.write, 3⟩]).state.scheduled = [⟨.read, 2⟩] := by
  decide

end System

/-! ## The mutex -/

/-- `Mutex`, with the number of a task in place of the closure that locks for it. `holders` are the
tasks that were let in and have not unlocked. -/
structure Mutex where
  locked : Bool
  queue : List Nat
  holders : List Nat

namespace Mutex

def new : Mutex := ⟨false, [], []⟩

def lock (task : Nat) (mutex : Mutex) : Mutex :=
  if mutex.locked then { mutex with queue := mutex.queue ++ [task] }
  else { mutex with locked := true, holders := mutex.holders ++ [task] }

/-- `_unlock`, of a task that is done. -/
def unlock (task : Nat) (mutex : Mutex) : Mutex :=
  let mutex := { mutex with locked := false, holders := mutex.holders.erase task }
  match mutex.queue with
  | queued :: queue => lock queued { mutex with queue }
  | [] => mutex

/-- One task holds the mutex, or it is free and none waits. -/
inductive Exclusive (mutex : Mutex) : Prop
  | free (hlocked : mutex.locked = false) (hqueue : mutex.queue = []) (hholders : mutex.holders = [])
  | held {holder : Nat} (hlocked : mutex.locked = true) (hholders : mutex.holders = [holder])

variable {mutex : Mutex} {task : Nat}

theorem exclusive_new : new.Exclusive := .free rfl rfl rfl

/-- A task is let in alone, or queued behind the others. -/
theorem Exclusive.lock_cases (h : mutex.Exclusive) (task : Nat) :
    (mutex.holders = [] ∧ mutex.queue = [] ∧ lock task mutex = ⟨true, [], [task]⟩) ∨
      ∃ holder, mutex.holders = [holder] ∧
        lock task mutex = ⟨true, mutex.queue ++ [task], [holder]⟩ := by
  cases h with
  | free hlocked hqueue hholders =>
      refine .inl ⟨hholders, hqueue, ?_⟩
      simp [lock, hlocked, hqueue, hholders]
  | @held holder hlocked hholders =>
      refine .inr ⟨holder, hholders, ?_⟩
      simp [lock, hlocked, hholders]

/-- Who is let in next is the first of the queue. -/
theorem Exclusive.unlock_cases (h : mutex.Exclusive) (hmem : task ∈ mutex.holders) :
    mutex.holders = [task] ∧
      (mutex.queue = [] ∧ unlock task mutex = new ∨
        ∃ queued queue, mutex.queue = queued :: queue ∧
          unlock task mutex = ⟨true, queue, [queued]⟩) := by
  cases h with
  | free hlocked hqueue hholders =>
      rw [hholders] at hmem
      cases hmem
  | held hlocked hholders =>
      rw [hholders] at hmem
      obtain rfl := List.mem_singleton.mp hmem
      refine ⟨hholders, ?_⟩
      cases hqueue : mutex.queue with
      | nil => exact .inl ⟨rfl, by simp [unlock, hqueue, hholders, new]⟩
      | cons queued queue =>
          exact .inr ⟨queued, queue, rfl, by simp [unlock, hqueue, hholders, lock]⟩

theorem Exclusive.lock (h : mutex.Exclusive) (task : Nat) : (lock task mutex).Exclusive := by
  rcases h.lock_cases task with ⟨-, -, hlock⟩ | ⟨holder, -, hlock⟩
  · rw [hlock]
    exact .held rfl rfl
  · rw [hlock]
    exact .held rfl rfl

theorem Exclusive.unlock (h : mutex.Exclusive) (hmem : task ∈ mutex.holders) :
    (unlock task mutex).Exclusive := by
  rcases h.unlock_cases hmem with ⟨-, ⟨-, hunlock⟩ | ⟨queued, queue, -, hunlock⟩⟩
  · rw [hunlock]
    exact exclusive_new
  · rw [hunlock]
    exact .held rfl rfl

end Mutex

end Lock
end UniqysKit
