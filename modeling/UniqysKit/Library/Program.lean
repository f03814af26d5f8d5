import UniqysKit.Library.Fallible

/-!
# Programs over operations

A program that goes from one operation to the next, each with a result, until it returns or throws.
What the operations do is left open: `run` takes it as an argument, so the same program can run
over an implementation and over its specification; `eval` is for operations that only read, and `log`
collects what they write.  A rule for operations becomes a rule for programs; `Uses` says which
operations it is needed for.
-/

namespace UniqysKit
namespace Library

inductive Program (ε : Type) {Op : Type} (Res : Op → Type) (α : Type) where
  | done (answer : Except ε α)
  | call (op : Op) (next : Res op → Program ε Res α)

namespace Program

variable {ε σ τ α β Op : Type} {Res : Op → Type}

protected def bind (f : α → Program ε Res β) : Program ε Res α → Program ε Res β
  | done (.ok a) => f a
  | done (.error e) => done (.error e)
  | call op next => call op fun r => (next r).bind f

instance : Monad (Program ε Res) where
  pure a := done (.ok a)
  bind p f := p.bind f

/-- A single operation. -/
def perform (op : Op) : Program ε Res (Res op) := call op fun r => done (.ok r)

/-- The program with a meaning for its operations. -/
def run (act : (op : Op) → EStateM ε σ (Res op)) : Program ε Res α → EStateM ε σ α
  | done (.ok a) => pure a
  | done (.error e) => throw e
  | call op next => act op >>= fun r => (next r).run act

/-- What the program comes to when its operations only read. -/
def eval (read : (op : Op) → Except ε (Res op)) : Program ε Res α → Except ε α
  | done answer => answer
  | call op next => read op >>= fun r => (next r).eval read

/-- What the operations write, in their order. -/
def log {ω : Type} (act : (op : Op) → EStateM ε σ (Res op)) (writes : Op → σ → List ω) :
    Program ε Res α → σ → List ω
  | done _, _ => []
  | call op next, s =>
      writes op s ++
        match act op s with
        | .ok r s' => (next r).log act writes s'
        | .error _ _ => []

/-- `P` holds of every operation the program can come to. -/
def Uses (P : Op → Prop) : Program ε Res α → Prop
  | done _ => True
  | call op next => P op ∧ ∀ r, (next r).Uses P

section Run

variable {act : (op : Op) → EStateM ε σ (Res op)}

@[simp] theorem run_pure (a : α) : (pure a : Program ε Res α).run act = pure a := rfl

@[simp] theorem run_error (e : ε) : (done (.error e) : Program ε Res α).run act = throw e := rfl

theorem run_bind (p : Program ε Res α) (f : α → Program ε Res β) :
    (p >>= f).run act = p.run act >>= fun a => (f a).run act := by
  induction p with
  | done answer =>
      cases answer with
      | ok a =>
          show (f a).run act = (pure a : EStateM ε σ α) >>= fun a => (f a).run act
          rw [pure_bind]
      | error e => rfl
  | call op next ih =>
      show (act op >>= fun r => (next r >>= f).run act) = _
      rw [run, bind_assoc]
      exact bind_congr ih

@[simp] theorem run_perform (op : Op) : (perform op : Program ε Res (Res op)).run act = act op :=
  bind_pure (act op)

section Log

variable {ω : Type} {writes : Op → σ → List ω}

@[simp] theorem log_done (answer : Except ε α) (s : σ) :
    (done answer : Program ε Res α).log act writes s = [] := rfl

@[simp] theorem log_perform (op : Op) (s : σ) :
    (perform op : Program ε Res (Res op)).log act writes s = writes op s := by
  rw [perform, log]
  cases act op s with
  | ok r s' => exact List.append_nil _
  | error e s' => exact List.append_nil _

theorem log_bind (p : Program ε Res α) (f : α → Program ε Res β) (s : σ) :
    (p >>= f).log act writes s = p.log act writes s ++
      match p.run act s with
      | .ok a s' => (f a).log act writes s'
      | .error _ _ => [] := by
  induction p generalizing s with
  | done answer =>
      cases answer with
      | ok a => rfl
      | error e => rfl
  | call op next ih =>
      have hcall : (call op next >>= f : Program ε Res β) = call op fun r => next r >>= f := rfl
      rw [hcall, log, log, run]
      cases hact : act op s with
      | ok r s' =>
          rw [Fallible.bind_ok hact]
          simp only [ih, List.append_assoc]
      | error e s' =>
          rw [Fallible.bind_error hact]
          simp only [List.append_nil]

variable (act) in
/-- What holds of all writes of operations holds of those of the program. -/
theorem forall_mem_log {P : ω → Prop} (h : ∀ op s, ∀ write ∈ writes op s, P write)
    (p : Program ε Res α) (s : σ) : ∀ write ∈ p.log act writes s, P write := by
  induction p generalizing s with
  | done answer => exact nofun
  | call op next ih =>
      intro write hmem
      rw [log] at hmem
      rcases List.mem_append.mp hmem with hmem | hmem
      · exact h op s write hmem
      · split at hmem
        · exact ih _ _ write hmem
        · exact (List.not_mem_nil hmem).elim

/-- If the writes of each operation make up its change, all writes make up the change of the program. -/
theorem foldl_log {δ : Type} {apply : δ → ω → δ} {view : σ → δ}
    (h : ∀ op s, (writes op s).foldl apply (view s) = view (Fallible.final (act op s)))
    (p : Program ε Res α) (s : σ) :
    (p.log act writes s).foldl apply (view s) = view (Fallible.final (p.run act s)) := by
  induction p generalizing s with
  | done answer =>
      cases answer with
      | ok a => rfl
      | error e => rfl
  | call op next ih =>
      have hop := h op s
      rw [log, List.foldl_append, hop, run]
      cases hact : act op s with
      | ok r s' =>
          rw [Fallible.bind_ok hact]
          exact ih r s'
      | error e s' =>
          rw [Fallible.bind_error hact]
          rfl

end Log

end Run

section Eval

variable {read : (op : Op) → Except ε (Res op)}

@[simp] theorem eval_done (answer : Except ε α) :
    (done answer : Program ε Res α).eval read = answer := rfl

@[simp] theorem eval_pure (a : α) : (pure a : Program ε Res α).eval read = .ok a := rfl

@[simp] theorem eval_perform (op : Op) :
    (perform op : Program ε Res (Res op)).eval read = read op := by
  unfold perform eval
  cases read op with
  | ok r => rfl
  | error e => rfl

@[simp] theorem eval_bind (p : Program ε Res α) (f : α → Program ε Res β) :
    (p >>= f).eval read = p.eval read >>= fun a => (f a).eval read := by
  induction p with
  | done answer =>
      cases answer with
      | ok a => rfl
      | error e => rfl
  | call op next ih =>
      show (read op >>= fun r => (next r >>= f).eval read) = _
      cases hread : read op with
      | ok r =>
          rw [eval, hread]
          exact ih r
      | error e =>
          rw [eval, hread]
          rfl

/-- What is read ahead of the rest, if the whole comes to a value. -/
theorem eval_call_eq_ok {op : Op} {next : Res op → Program ε Res α} {a : α}
    (h : (call op next).eval read = .ok a) : ∃ r, read op = .ok r ∧ (next r).eval read = .ok a := by
  rw [eval] at h
  cases hread : read op with
  | ok r =>
      rw [hread] at h
      exact ⟨r, rfl, h⟩
  | error e =>
      rw [hread] at h
      cases h

/-- A value stays, as long as everything that could be read is read the same. -/
theorem eval_mono {read' : (op : Op) → Except ε (Res op)} {p : Program ε Res α} {a : α}
    (hread : ∀ op r, read op = .ok r → read' op = .ok r) (h : p.eval read = .ok a) :
    p.eval read' = .ok a := by
  induction p with
  | done answer => exact h
  | call op next ih =>
      rcases eval_call_eq_ok h with ⟨r, hop, hnext⟩
      rw [eval, hread op r hop]
      exact ih r hnext

/-- The program only makes operations with `P`, as long as their results have `R`, and comes to a value
with `Q` if to any. -/
def Confined (P : Op → Prop) (R : (op : Op) → Res op → Prop) (Q : α → Prop) : Program ε Res α → Prop
  | done (.ok a) => Q a
  | done (.error _) => True
  | call op next => P op ∧ ∀ r, R op r → (next r).Confined P R Q

section Confined

variable {P : Op → Prop} {R : (op : Op) → Res op → Prop} {Q : α → Prop} {p : Program ε Res α}

theorem Confined.mono {Q' : α → Prop} (h : p.Confined P R Q) (hQ : ∀ a, Q a → Q' a) :
    p.Confined P R Q' := by
  induction p with
  | done answer =>
      cases answer with
      | ok a => exact hQ a h
      | error e => trivial
  | call op next ih => exact ⟨h.1, fun r hr => ih r (h.2 r hr)⟩

theorem Confined.bind {Q' : β → Prop} {f : α → Program ε Res β} (h : p.Confined P R Q)
    (hf : ∀ a, Q a → (f a).Confined P R Q') : (p >>= f).Confined P R Q' := by
  induction p with
  | done answer =>
      cases answer with
      | ok a => exact hf a h
      | error e => trivial
  | call op next ih => exact ⟨h.1, fun r hr => ih r (h.2 r hr)⟩

/-- Where the operations it can make are read the same, the program comes to the same. -/
theorem Confined.eval_eq (h : p.Confined P R Q) {read' : (op : Op) → Except ε (Res op)}
    (hread : ∀ op, P op → read' op = read op ∧ ∀ r, read op = .ok r → R op r) :
    p.eval read' = p.eval read ∧ ∀ a, p.eval read = .ok a → Q a := by
  induction p with
  | done answer =>
      refine ⟨rfl, ?_⟩
      rintro a rfl
      exact h
  | call op next ih =>
      rcases hread op h.1 with ⟨hsame, hres⟩
      rw [eval, eval, hsame]
      cases hop : read op with
      | error e => exact ⟨rfl, nofun⟩
      | ok r => exact ih r (h.2 r (hres r hop))

end Confined

end Eval

/-! ## Rules -/

section Rules

variable {P Q : Op → Prop} {p : Program ε Res α}

theorem uses_pure (a : α) : (pure a : Program ε Res α).Uses P := trivial

theorem uses_done (answer : Except ε α) : (done answer : Program ε Res α).Uses P := trivial

theorem uses_perform {op : Op} (h : P op) : (perform op : Program ε Res (Res op)).Uses P :=
  ⟨h, fun _ => trivial⟩

theorem Uses.bind {f : α → Program ε Res β} (hp : p.Uses P) (hf : ∀ a, (f a).Uses P) :
    (p >>= f).Uses P := by
  induction p with
  | done answer =>
      cases answer with
      | ok a => exact hf a
      | error e => trivial
  | call op next ih => exact ⟨hp.1, fun r => ih r (hp.2 r)⟩

/-- What follows a computation may use that it went through. -/
theorem uses_done_bind {answer : Except ε α} {f : α → Program ε Res β}
    (h : ∀ a, answer = .ok a → (f a).Uses P) : (done answer >>= f).Uses P := by
  cases answer with
  | ok a => exact h a rfl
  | error e => trivial

theorem uses_any (p : Program ε Res α) : p.Uses fun _ => True := by
  induction p with
  | done answer => trivial
  | call op next ih => exact ⟨trivial, ih⟩

/-- What holds between the states before and after each operation holds of the whole. -/
theorem Uses.respects {R : Fallible.Progress σ} {act : (op : Op) → EStateM ε σ (Res op)}
    (hp : p.Uses P) (h : ∀ op, P op → Fallible.Respects R (act op)) :
    Fallible.Respects R (p.run act) := by
  induction p with
  | done answer =>
      cases answer with
      | ok a => exact .pure a
      | error e => exact .throw e
  | call op next ih => exact (h op hp.1).bind fun r => ih r (hp.2 r)

/-- Operations that do the same make programs that do the same. -/
theorem Uses.simulates {good : σ → Prop} {R : σ → τ → Prop}
    {act : (op : Op) → EStateM ε σ (Res op)} {act' : (op : Op) → EStateM ε τ (Res op)}
    (hp : p.Uses P) (h : ∀ op, P op → Fallible.Simulates good R (act op) (act' op)) :
    Fallible.Simulates good R (p.run act) (p.run act') := by
  induction p with
  | done answer =>
      cases answer with
      | ok a => exact .pure a
      | error e => exact .throw e
  | call op next ih => exact (h op hp.1).bind fun r => ih r (hp.2 r)

end Rules

end Program

end Library
end UniqysKit
