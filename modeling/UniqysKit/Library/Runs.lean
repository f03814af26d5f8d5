import Mathlib.Data.List.Induction
import Mathlib.Tactic.Common

/-!
# Properties along a run

A run is a list of events that are applied to a state one after another.  `Along` says that
something holds at each step of it, of the state before and of the event.
-/

namespace UniqysKit
namespace Library

variable {σ ε : Type} {step : σ → ε → σ} {s : σ} {events : List ε} {P Q : σ → ε → Prop}

/-- `P` holds at every step of the run. -/
def Along (step : σ → ε → σ) (s : σ) (events : List ε) (P : σ → ε → Prop) : Prop :=
  ∀ before event after, events = before ++ event :: after → P (before.foldl step s) event

/-- The state after any part of a run. -/
def Throughout (step : σ → ε → σ) (s : σ) (events : List ε) (P : σ → Prop) : Prop :=
  ∀ before after, events = before ++ after → P (before.foldl step s)

theorem along_nil : Along step s [] P := by
  intro before event after h
  simp at h

/-- A run from its first event on. -/
theorem along_cons {event : ε} (hfirst : P s event) (hrest : Along step (step s event) events P) :
    Along step s (event :: events) P := by
  intro before event' after h
  cases before with
  | nil =>
      cases h
      exact hfirst
  | cons first before =>
      cases h
      exact hrest before event' after rfl

theorem along_cons_iff {event : ε} :
    Along step s (event :: events) P ↔ P s event ∧ Along step (step s event) events P := by
  constructor
  · intro h
    refine ⟨h [] event events rfl, ?_⟩
    intro before event' after hevents
    exact h (event :: before) event' after (by rw [hevents, List.cons_append])
  · rintro ⟨hfirst, hrest⟩
    exact along_cons hfirst hrest

/-- A property that can be decided of a step can be decided of a run. -/
instance decidableAlong [∀ s event, Decidable (P s event)] :
    (s : σ) → (events : List ε) → Decidable (Along step s events P)
  | _, [] => isTrue along_nil
  | s, event :: events =>
      have := decidableAlong (step s event) events
      decidable_of_iff _ along_cons_iff.symm

theorem Along.of_append {after : List ε} (h : Along step s (events ++ after) P) :
    Along step s events P := by
  rintro before event rest rfl
  exact h before event (rest ++ after) (by simp)

theorem Along.last {event : ε} (h : Along step s (events ++ [event]) P) :
    P (events.foldl step s) event :=
  h events event [] rfl

/-- The rule for invariants of runs whose steps meet a condition. -/
theorem Along.throughout {Inv : σ → Prop} (h : Along step s events P) (hinit : Inv s)
    (hstep : ∀ s event, Inv s → P s event → Inv (step s event)) : Throughout step s events Inv := by
  rintro before after rfl
  have hbefore := h.of_append
  clear h
  -- from the last event of the part of the run that is looked at
  induction before using List.reverseRecOn with
  | nil => exact hinit
  | append_singleton before event ih =>
      rw [List.foldl_append]
      exact hstep _ event (ih hbefore.of_append) hbefore.last

/-- The rule for invariants of all runs. -/
theorem throughout {Inv : σ → Prop} (hinit : Inv s)
    (hstep : ∀ s event, Inv s → Inv (step s event)) (events : List ε) :
    Throughout step s events Inv :=
  Along.throughout (P := fun _ _ => True) (fun _ _ _ _ => trivial) hinit
    fun s event hinv _ => hstep s event hinv

/-- What holds of a step where an invariant holds, holds along a run throughout which it holds. -/
theorem Throughout.along {Inv : σ → Prop} (hinv : Throughout step s events Inv)
    (h : Along step s events P) (himp : ∀ s event, Inv s → P s event → Q s event) :
    Along step s events Q := by
  intro before event after hevents
  exact himp _ event (hinv before (event :: after) hevents) (h before event after hevents)

/-! ## What a run must reach -/

/-- How many events of the run count. -/
def countAlong (step : σ → ε → σ) (counts : σ → ε → Bool) : σ → List ε → Nat
  | _, [] => 0
  | s, event :: events =>
      (if counts s event then 1 else 0) + countAlong step counts (step s event) events

/-- The rule for what a run must reach: until it is reached a measure is never raised, and each event
that counts lowers it. -/
theorem Along.reaches {Inv reached : σ → Prop} {counts : σ → ε → Bool} {measure : σ → Nat}
    (h : Along step s events P) (hinit : Inv s)
    (hkeeps : ∀ s event, reached s → reached (step s event))
    (hstep : ∀ s event, Inv s → P s event → reached (step s event) ∨
      Inv (step s event) ∧ measure (step s event) + (if counts s event then 1 else 0) ≤ measure s) :
    reached (events.foldl step s) ∨ Inv (events.foldl step s) ∧
      measure (events.foldl step s) + countAlong step counts s events ≤ measure s := by
  have hstays : ∀ (events : List ε) (s : σ), reached s → reached (events.foldl step s) := by
    intro events
    induction events with
    | nil => exact fun s hreached => hreached
    | cons event events ih => exact fun s hreached => ih _ (hkeeps s event hreached)
  induction events generalizing s with
  | nil => exact .inr ⟨hinit, Nat.le_refl _⟩
  | cons event events ih =>
      rcases along_cons_iff.mp h with ⟨hfirst, hrest⟩
      rcases hstep s event hinit hfirst with hreached | ⟨hinv, hle⟩
      · exact .inl (hstays events _ hreached)
      · rcases ih hrest hinv with hreached | ⟨hlast, hmeasure⟩
        · exact .inl hreached
        · refine .inr ⟨hlast, ?_⟩
          rw [countAlong, List.foldl_cons]
          omega

end Library
end UniqysKit
