import UniqysKit.Library.Fallible

/-!
# Processes

Code that gives way between its steps, so that other code can run there.  A step acts on the state
that it finds, and what comes after it depends on that state.  `await` makes a step of a program that
can throw.
-/

namespace UniqysKit
namespace Library

inductive Process (σ : Type) where
  | finished
  | step (act : σ → σ) (next : σ → Process σ)

namespace Process

variable {σ ε α : Type}

/-- A program, and what comes after it with its value. A throw ends the process. -/
def await (action : EStateM ε σ α) (rest : α → Process σ) : Process σ :=
  .step (fun s => Fallible.final (action s)) fun s =>
    match Fallible.value (action s) with
    | some a => rest a
    | none => .finished

/-- The state after a process that nothing else comes between. -/
def run : Process σ → σ → σ
  | .finished, s => s
  | .step act next, s => (next s).run (act s)

variable {action : EStateM ε σ α} {rest : α → Process σ}

/-- A process that makes the steps of a sequence of programs ends where the sequence does. -/
theorem run_await {β : Type} {f : α → EStateM ε σ β} {s : σ}
    (h : ∀ a s', (rest a).run s' = Fallible.final (f a s')) :
    (await action rest).run s = Fallible.final ((action >>= f) s) := by
  rcases Fallible.bind_cases action f s with ⟨a, s', hx, hbind⟩ | ⟨e, s', hx, hbind⟩
  · rw [hbind, await, run, hx]
    exact h a s'
  · rw [hbind, await, run, hx]
    rfl

/-- The last program of a process. -/
theorem run_await_finished {s : σ} :
    (await action fun _ => .finished).run s = Fallible.final (action s) := by
  rw [await, run]
  cases Fallible.value (action s) with
  | none => rfl
  | some a => rfl

end Process

end Library
end UniqysKit
