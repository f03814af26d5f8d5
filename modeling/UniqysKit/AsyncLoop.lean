import UniqysKit.Library.Runs

/-!
# The async loop

`AsyncLoop` of `packages/async-loop`.  An iteration is scheduled by `setImmediate` and has the number
of its immediate.  It is under way from when the immediate runs until a callback of its promise has
run, which schedules the next iteration or, in `catch`, stops the loop.

Calls of `start` and `stop` come at any time.  While `catch` emits the error nothing else happens than
the calls that the listeners make.
-/

namespace UniqysKit

open Library

/-- `AsyncLoop`, with the immediates that have not run and the iterations that are under way.
`stopped` says that there was no `start` after the last `stop`. -/
structure AsyncLoop where
  immediateId : Option Nat
  immediates : List Nat
  running : List Nat
  catching : Bool
  nextId : Nat
  stopped : Bool
  deriving DecidableEq

namespace AsyncLoop

def new : AsyncLoop := ⟨none, [], [], false, 0, true⟩

/-- `this.immediateId = setImmediate(loop)`. -/
def setImmediate (loop : AsyncLoop) : AsyncLoop :=
  { loop with
    immediateId := some loop.nextId
    immediates := loop.immediates ++ [loop.nextId]
    nextId := loop.nextId + 1 }

def start (loop : AsyncLoop) : AsyncLoop :=
  { loop.setImmediate with stopped := false }

/-- An immediate that has run is not there to be cleared. -/
def stop (loop : AsyncLoop) : AsyncLoop :=
  match loop.immediateId with
  | some id =>
      { loop with
        immediates := loop.immediates.erase id
        immediateId := none
        stopped := true }
  | none => { loop with stopped := true }

inductive Event
  | start
  | stop
  /-- An immediate runs, which begins an iteration. -/
  | immediate (id : Nat)
  /-- The callback of `then`. -/
  | fulfilled (id : Nat)
  /-- The callback of `catch` emits the error. -/
  | rejected (id : Nat)
  /-- The listeners return, and the callback of `catch` stops the loop. -/
  | caught
  /-- There is no listener for the error, or one throws: the callback of `catch` ends there. -/
  | uncaught
  deriving DecidableEq

/-- An iteration begins. -/
def Begins (loop : AsyncLoop) (event : Event) : Prop :=
  loop.catching = false ∧ ∃ id ∈ loop.immediates, event = .immediate id

/-- An event that cannot happen does nothing. -/
def step (loop : AsyncLoop) : Event → AsyncLoop
  | .start => loop.start
  | .stop => loop.stop
  | .immediate id =>
      if loop.catching = false ∧ id ∈ loop.immediates then
        { loop with
          immediates := loop.immediates.erase id
          running := loop.running ++ [id] }
      else loop
  | .fulfilled id =>
      if loop.catching = false ∧ id ∈ loop.running then
        let loop := { loop with running := loop.running.erase id }
        if loop.immediateId.isSome then loop.setImmediate else loop
      else loop
  | .rejected id =>
      if loop.catching = false ∧ id ∈ loop.running then
        { loop with running := loop.running.erase id, catching := true }
      else loop
  | .caught => if loop.catching then { loop with catching := false }.stop else loop
  | .uncaught => { loop with catching := false }

/-! ## What the loop is for -/

/-- How many iterations are scheduled or under way. -/
def active (loop : AsyncLoop) : Nat := loop.immediates.length + loop.running.length

/-- The loop is started once, and again only after it was stopped. -/
def Alternates (loop : AsyncLoop) (event : Event) : Prop :=
  event = .start → loop.stopped

instance (loop : AsyncLoop) (event : Event) : Decidable (loop.Alternates event) :=
  inferInstanceAs (Decidable (_ → _))

/-- The iterations of a run never overlap, and none begins after a `stop`. -/
structure Exclusive (events : List Event) : Prop where
  single : Throughout step new events fun loop => loop.active ≤ 1
  ends : Along step new events fun loop event => loop.Begins event → loop.stopped = false

/-- The loop is not started while an iteration is under way. -/
def StartsIdle (loop : AsyncLoop) (event : Event) : Prop :=
  event = .start → loop.running = []

instance (loop : AsyncLoop) (event : Event) : Decidable (loop.StartsIdle event) :=
  inferInstanceAs (Decidable (_ → _))

/-! ## Runs in which the loop is started when it is idle -/

/-- The invariant: what is scheduled can be cleared. -/
structure Inv (loop : AsyncLoop) : Prop where
  single : loop.active ≤ 1
  known : ∀ id ∈ loop.immediates, loop.immediateId = some id
  stopped : loop.stopped → loop.immediateId = none

variable {loop : AsyncLoop} {event : Event} {events : List Event}

theorem inv_new : Inv new := by
  refine ⟨Nat.zero_le 1, ?_, fun _ => rfl⟩
  intro id hid
  cases hid

theorem Inv.immediates_of_stopped (h : Inv loop) (hid : loop.immediateId = none) :
    loop.immediates = [] := by
  refine List.eq_nil_iff_forall_not_mem.mpr ?_
  intro id hmem
  have hknown := h.known id hmem
  rw [hid] at hknown
  cases hknown

/-- Beside an iteration that is under way nothing is scheduled. -/
theorem Inv.of_mem_running {id : Nat} (h : Inv loop) (hid : id ∈ loop.running) :
    loop.immediates = [] ∧ loop.running.erase id = [] := by
  have hsingle := h.single
  have hpos := List.length_pos_of_mem hid
  have herase := List.length_erase_of_mem hid
  rw [active] at hsingle
  exact ⟨List.length_eq_zero_iff.mp (by omega), List.length_eq_zero_iff.mp (by omega)⟩

/-- An iteration is scheduled where there is none. -/
theorem inv_setImmediate (himmediates : loop.immediates = []) (hrunning : loop.running = [])
    (hstopped : loop.stopped = false) : Inv loop.setImmediate := by
  refine ⟨?_, ?_, ?_⟩
  · simp [setImmediate, active, himmediates, hrunning]
  · intro id hmem
    simp only [setImmediate, himmediates, List.nil_append, List.mem_singleton] at hmem
    rw [hmem, setImmediate]
  · intro h
    rw [setImmediate, hstopped] at h
    cases h

theorem Inv.start (h : Inv loop) (hstopped : loop.stopped) (hrunning : loop.running = []) :
    Inv loop.start :=
  @inv_setImmediate { loop with stopped := false }
    (h.immediates_of_stopped (h.stopped hstopped)) hrunning rfl

theorem stop_of_none (hid : loop.immediateId = none) :
    loop.stop = { loop with stopped := true } := by
  simp [stop, hid]

theorem stop_of_some {id : Nat} (hid : loop.immediateId = some id) :
    loop.stop = { loop with
      immediates := loop.immediates.erase id
      immediateId := none
      stopped := true } := by
  simp [stop, hid]

theorem Inv.stop (h : Inv loop) : Inv loop.stop := by
  cases hid : loop.immediateId with
  | none =>
      rw [stop_of_none hid]
      refine ⟨h.single, ?_, fun _ => hid⟩
      intro id hmem
      exact h.known id hmem
  | some current =>
      rw [stop_of_some hid]
      have hlen : (loop.immediates.erase current).length ≤ loop.immediates.length :=
        List.length_erase_le
      have hsingle := h.single
      rw [active] at hsingle
      refine ⟨?_, ?_, fun _ => rfl⟩
      · show (loop.immediates.erase current).length + loop.running.length ≤ 1
        omega
      · -- the one that was scheduled is the one that is cleared
        intro id hmem
        have hold := List.mem_of_mem_erase hmem
        have hknown := h.known id hold
        rw [hid] at hknown
        cases hknown
        have hpos : 0 < (loop.immediates.erase current).length := List.length_pos_of_mem hmem
        have herase := List.length_erase_of_mem hold
        omega

theorem Inv.immediate {id : Nat} (h : Inv loop) (hid : id ∈ loop.immediates) :
    Inv { loop with
      immediates := loop.immediates.erase id
      running := loop.running ++ [id] } := by
  have hpos := List.length_pos_of_mem hid
  have herase := List.length_erase_of_mem hid
  have hsingle := h.single
  rw [active] at hsingle
  refine ⟨?_, ?_, h.stopped⟩
  · simp only [active, List.length_append, List.length_singleton]
    omega
  · intro other hmem
    exact h.known other (List.mem_of_mem_erase hmem)

/-- An iteration is over. -/
theorem Inv.erase {id : Nat} (h : Inv loop) (hid : id ∈ loop.running) (catching : Bool) :
    Inv { loop with running := loop.running.erase id, catching } := by
  rcases h.of_mem_running hid with ⟨himmediates, hrunning⟩
  exact ⟨by simp [active, himmediates, hrunning], h.known, h.stopped⟩

theorem Inv.fulfilled {id : Nat} (h : Inv loop) (hid : id ∈ loop.running) :
    Inv (if loop.immediateId.isSome then
      { loop with running := loop.running.erase id }.setImmediate
      else { loop with running := loop.running.erase id }) := by
  rcases h.of_mem_running hid with ⟨himmediates, hrunning⟩
  split
  · rename_i hgoes
    have hstopped : loop.stopped = false := by
      by_contra hstopped
      rw [h.stopped (Bool.not_eq_false _ ▸ hstopped)] at hgoes
      cases hgoes
    exact inv_setImmediate himmediates hrunning hstopped
  · exact h.erase hid loop.catching

theorem Inv.step (h : Inv loop) (halternates : loop.Alternates event)
    (hidle : loop.StartsIdle event) : Inv (loop.step event) := by
  cases event with
  | start => exact h.start (halternates rfl) (hidle rfl)
  | stop => exact h.stop
  | immediate id =>
      simp only [AsyncLoop.step]
      split
      · rename_i hid
        exact h.immediate hid.2
      · exact h
  | fulfilled id =>
      simp only [AsyncLoop.step]
      split
      · rename_i hid
        exact h.fulfilled hid.2
      · exact h
  | rejected id =>
      simp only [AsyncLoop.step]
      split
      · rename_i hid
        exact h.erase hid.2 true
      · exact h
  | caught =>
      simp only [AsyncLoop.step]
      split
      · -- the listeners have returned, and the loop stops itself
        have hcaught : Inv { loop with catching := false } := ⟨h.single, h.known, h.stopped⟩
        exact hcaught.stop
      · exact h
  | uncaught => exact ⟨h.single, h.known, h.stopped⟩

theorem Inv.begins (h : Inv loop) (hbegins : loop.Begins event) : loop.stopped = false := by
  rcases hbegins with ⟨-, id, hid, -⟩
  by_contra hstopped
  have hknown := h.known id hid
  rw [h.stopped (Bool.not_eq_false _ ▸ hstopped)] at hknown
  cases hknown

theorem Exclusive.startsIdle (h : Exclusive events) : Along step new events StartsIdle := by
  rintro before event after hevents rfl
  have hsingle := h.single (before ++ [.start]) after (by simp [hevents])
  rw [List.foldl_append] at hsingle
  -- the start has scheduled an iteration
  simp only [List.foldl_cons, List.foldl_nil, step, start, setImmediate, active, List.length_append,
    List.length_singleton] at hsingle
  exact List.length_eq_zero_iff.mp (by omega)

/-- The iterations of a run never overlap, and none begins after a `stop`, exactly when the loop is
never started again while an iteration is under way. -/
theorem exclusive_iff (events : List Event) (halternates : Along step new events Alternates) :
    Exclusive events ↔ Along step new events StartsIdle := by
  constructor
  · intro h
    exact h.startsIdle
  · intro hidle
    have hboth : Along step new events fun loop event =>
        loop.Alternates event ∧ loop.StartsIdle event := fun before event after hevents =>
      ⟨halternates before event after hevents, hidle before event after hevents⟩
    have hinv : Throughout step new events Inv :=
      hboth.throughout inv_new fun loop event h hstep => h.step hstep.1 hstep.2
    refine ⟨fun before after hevents => (hinv before after hevents).single, ?_⟩
    exact hinv.along hidle fun loop event h _ => h.begins

/-- The loop is stopped during its second iteration and started again after it. -/
theorem exclusive_waited :
    Exclusive [.start, .immediate 0, .fulfilled 0, .immediate 1, .stop, .fulfilled 1, .start] :=
  (exclusive_iff _ (by decide)).mpr (by decide)

/-- A loop that is stopped and started again during its first iteration. -/
def restarted : List Event :=
  [.start, .immediate 0, .stop, .start, .fulfilled 0, .immediate 1, .immediate 2]

/-- Two iterations are under way at once. -/
theorem not_exclusive_restarted :
    Along step new restarted Alternates ∧ (restarted.foldl step new).running = [1, 2] ∧
      ¬ Exclusive restarted := by
  refine ⟨by decide, by decide, ?_⟩
  intro h
  have hsingle : (restarted.foldl step new).active ≤ 1 :=
    h.single restarted [] (List.append_nil _).symm
  exact absurd hsingle (by decide)

end AsyncLoop
end UniqysKit
