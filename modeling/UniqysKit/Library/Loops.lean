import Mathlib.Tactic.Common

/-!
# Loops that are fed from outside

A loop takes one input a turn and goes on with another state or ends.  A measure that every turn
which goes on takes down brings the loop to its end, whatever the inputs are.
-/

namespace UniqysKit
namespace Library

variable {σ ε : Type} (body : σ → ε → Option σ) (inputs : Nat → ε)

/-- The state at the start of a turn, `none` once the loop has ended. -/
def stateAt (s : σ) : Nat → Option σ
  | 0 => some s
  | n + 1 => (stateAt s n).bind fun s => body s (inputs n)

variable {body inputs} {s : σ}

theorem stateAt_succ {n : Nat} {s' : σ} (h : stateAt body inputs s n = some s') :
    stateAt body inputs s (n + 1) = body s' (inputs n) := by
  rw [stateAt, h, Option.bind_some]

/-- A loop whose measure goes down comes to its end. -/
theorem exists_end (measure : σ → Nat)
    (hdown : ∀ n before after, stateAt body inputs s n = some before →
      body before (inputs n) = some after → measure after < measure before) :
    ∃ n, stateAt body inputs s n = none := by
  suffices hend : ∀ bound n before, stateAt body inputs s n = some before →
      measure before ≤ bound → ∃ m, stateAt body inputs s m = none from
    hend (measure s) 0 s rfl (Nat.le_refl _)
  -- induction on a bound of the measure
  intro bound
  induction bound with
  | zero =>
      intro n before hbefore hle
      cases hafter : body before (inputs n) with
      | none => exact ⟨n + 1, (stateAt_succ hbefore).trans hafter⟩
      | some after =>
          have hlt := hdown n before after hbefore hafter
          omega
  | succ bound ih =>
      intro n before hbefore hle
      cases hafter : body before (inputs n) with
      | none => exact ⟨n + 1, (stateAt_succ hbefore).trans hafter⟩
      | some after =>
          have hlt := hdown n before after hbefore hafter
          exact ih (n + 1) after ((stateAt_succ hbefore).trans hafter) (by omega)

/-- A loop that every turn leaves where it is does not end. -/
theorem stateAt_of_fixed (hfixed : ∀ n, body s (inputs n) = some s) (n : Nat) :
    stateAt body inputs s n = some s := by
  induction n with
  | zero => rfl
  | succ n ih => rw [stateAt_succ ih, hfixed]

end Library
end UniqysKit
