import Mathlib.Data.List.Infix
import Mathlib.Tactic.Common

/-!
# Steps that can throw

Programs over a state that can throw, where what was written before a throw stays written:
`EStateM` without backtracking.  `Fallible.Respects` is the rule for such programs: a relation
between the states before and after that holds for each part holds for the whole, whether or not
the program throws.
-/

namespace UniqysKit
namespace Library
namespace Fallible

variable {ε σ α β γ : Type}

/-- The state a program ends in, whether or not it throws. -/
def final : EStateM.Result ε σ α → σ
  | .ok _ s => s
  | .error _ s => s

/-- The value a program returns, if it does not throw. -/
def value : EStateM.Result ε σ α → Option α
  | .ok a _ => some a
  | .error _ _ => none

/-- What a program returns or throws, without the state. -/
def outcome : EStateM.Result ε σ α → Except ε α
  | .ok a _ => .ok a
  | .error e _ => .error e

@[simp] theorem final_ok (a : α) (s : σ) : final (.ok a s : EStateM.Result ε σ α) = s := rfl

@[simp] theorem final_error (e : ε) (s : σ) : final (.error e s : EStateM.Result ε σ α) = s := rfl

/-- Two ends with the same outcome. -/
theorem outcome_eq_cases {τ : Type} {r : EStateM.Result ε σ α} {r' : EStateM.Result ε τ α}
    (h : outcome r = outcome r') :
    (∃ a s t, r = .ok a s ∧ r' = .ok a t) ∨ ∃ e s t, r = .error e s ∧ r' = .error e t := by
  cases r with
  | ok a s =>
      cases r' with
      | ok b t =>
          cases h
          exact .inl ⟨a, s, t, rfl, rfl⟩
      | error e t => cases h
  | error e s =>
      cases r' with
      | ok b t => cases h
      | error e' t =>
          cases h
          exact .inr ⟨e, s, t, rfl, rfl⟩

theorem bind_ok {x : EStateM ε σ α} {f : α → EStateM ε σ β} {s s' : σ} {a : α}
    (h : x s = .ok a s') : (x >>= f) s = f a s' := by
  simp only [bind, EStateM.bind, h]

theorem bind_error {x : EStateM ε σ α} {f : α → EStateM ε σ β} {s s' : σ} {e : ε}
    (h : x s = .error e s') : (x >>= f) s = .error e s' := by
  simp only [bind, EStateM.bind, h]

/-- A program that begins with a look at the state. -/
theorem get_bind (f : σ → EStateM ε σ β) (s : σ) :
    ((get : EStateM ε σ σ) >>= f) s = f s s := rfl

/-- A program that begins with a change of the state. -/
theorem modify_bind (g : σ → σ) (f : PUnit → EStateM ε σ β) (s : σ) :
    ((modify g : EStateM ε σ PUnit) >>= f) s = f ⟨⟩ (g s) := rfl

/-- How a sequence of two programs can end. -/
theorem bind_cases (x : EStateM ε σ α) (f : α → EStateM ε σ β) (s : σ) :
    (∃ a s', x s = .ok a s' ∧ (x >>= f) s = f a s') ∨
      ∃ e s', x s = .error e s' ∧ (x >>= f) s = .error e s' := by
  cases h : x s with
  | ok a s' => exact .inl ⟨a, s', rfl, bind_ok h⟩
  | error e s' => exact .inr ⟨e, s', rfl, bind_error h⟩

/-- A value that is made of what a program returns does not change where it ends. -/
theorem final_bind_pure (x : EStateM ε σ α) (f : α → β) (s : σ) :
    final ((x >>= fun a => pure (f a)) s) = final (x s) := by
  rcases bind_cases x (fun a => pure (f a)) s with ⟨a, s', hx, hbind⟩ | ⟨e, s', hx, hbind⟩
  · rw [hbind, hx]
    rfl
  · rw [hbind, hx]
    rfl

/-! ## Relations along a program -/

/-- A reflexive and transitive relation between states. -/
structure Progress (σ : Type) where
  rel : σ → σ → Prop
  refl : ∀ s, rel s s
  trans : ∀ {s s' s''}, rel s s' → rel s' s'' → rel s s''

namespace Progress

/-- A list that only grows at its end. -/
def growing (log : σ → List γ) : Progress σ where
  rel s s' := log s <+: log s'
  refl _ := List.prefix_rfl
  trans := List.IsPrefix.trans

/-- A list that only grows at its end, by allowed entries. -/
def appending (log : σ → List γ) (allowed : γ → Prop) : Progress σ where
  rel s s' := ∃ added, log s' = log s ++ added ∧ ∀ entry ∈ added, allowed entry
  refl s := ⟨[], (List.append_nil _).symm, by simp⟩
  trans := by
    rintro s s' s'' ⟨first, hfirst, hall⟩ ⟨second, hsecond, hall'⟩
    refine ⟨first ++ second, by rw [hsecond, hfirst, List.append_assoc], ?_⟩
    intro entry hmem
    exact (List.mem_append.mp hmem).elim (hall entry) (hall' entry)

/-- A part of the state that does not change. -/
def constant (f : σ → γ) : Progress σ where
  rel s s' := f s' = f s
  refl _ := rfl
  trans h h' := h'.trans h

/-- A relation on a part of the state. -/
def comap {τ : Type} (f : σ → τ) (R : Progress τ) : Progress σ where
  rel s s' := R.rel (f s) (f s')
  refl s := R.refl (f s)
  trans h h' := R.trans h h'

/-- What leads to a good state starts in a good state. -/
def backward (good : σ → Prop) : Progress σ where
  rel s s' := good s' → good s
  refl _ := id
  trans h h' := h ∘ h'

/-- Two relations at once. -/
def both (R R' : Progress σ) : Progress σ where
  rel s s' := R.rel s s' ∧ R'.rel s s'
  refl s := ⟨R.refl s, R'.refl s⟩
  trans h h' := ⟨R.trans h.1 h'.1, R'.trans h.2 h'.2⟩

end Progress

/-- The program leads from each state to one that is related to it. -/
def Respects (R : Progress σ) (x : EStateM ε σ α) : Prop := ∀ s, R.rel s (final (x s))

variable {R : Progress σ}

namespace Respects

theorem pure (a : α) : Respects R (Pure.pure a : EStateM ε σ α) := by
  intro s
  exact R.refl s

theorem throw (e : ε) : Respects R (throw e : EStateM ε σ α) := by
  intro s
  exact R.refl s

theorem get : Respects R (MonadState.get : EStateM ε σ σ) := by
  intro s
  exact R.refl s

theorem modify {f : σ → σ} (h : ∀ s, R.rel s (f s)) :
    Respects R (modify f : EStateM ε σ PUnit) := by
  intro s
  exact h s

theorem bind {x : EStateM ε σ α} {f : α → EStateM ε σ β} (hx : Respects R x)
    (hf : ∀ a, Respects R (f a)) : Respects R (x >>= f) := by
  intro s
  have hfirst := hx s
  -- a throw of the first part ends the whole
  rcases bind_cases x f s with ⟨a, s', hxs, hbind⟩ | ⟨e, s', hxs, hbind⟩
  · rw [hxs] at hfirst
    rw [hbind]
    exact R.trans hfirst (hf a s')
  · rw [hxs] at hfirst
    rw [hbind]
    exact hfirst

/-- What the rest of a program does is related to where its first part ended. -/
theorem final_bind {x : EStateM ε σ α} {f : α → EStateM ε σ β} (hf : ∀ a, Respects R (f a))
    (s : σ) : R.rel (final (x s)) (final ((x >>= f) s)) := by
  rcases bind_cases x f s with ⟨a, s', hxs, hbind⟩ | ⟨e, s', hxs, hbind⟩
  · rw [hxs, hbind]
    exact hf a s'
  · rw [hxs, hbind]
    exact R.refl s'

end Respects

/-! ## Changes of the state that a program does not notice -/

/-- The same end in a changed state. -/
def mapState (g : σ → σ) : EStateM.Result ε σ α → EStateM.Result ε σ α
  | .ok a s => .ok a (g s)
  | .error e s => .error e (g s)

@[simp] theorem final_mapState (g : σ → σ) (r : EStateM.Result ε σ α) :
    final (mapState g r) = g (final r) := by
  cases r with
  | ok a s => rfl
  | error e s => rfl

/-- After the change the program does the same, and the change stays. -/
def Commutes (g : σ → σ) (x : EStateM ε σ α) : Prop := ∀ s, x (g s) = mapState g (x s)

namespace Commutes

variable {g : σ → σ}

theorem pure (a : α) : Commutes g (Pure.pure a : EStateM ε σ α) := by
  intro s
  rfl

theorem throw (e : ε) : Commutes g (throw e : EStateM ε σ α) := by
  intro s
  rfl

theorem modify {f : σ → σ} (h : ∀ s, f (g s) = g (f s)) :
    Commutes g (modify f : EStateM ε σ PUnit) := by
  intro s
  show EStateM.Result.ok PUnit.unit (f (g s)) = .ok PUnit.unit (g (f s))
  rw [h]

theorem bind {x : EStateM ε σ α} {f : α → EStateM ε σ β} (hx : Commutes g x)
    (hf : ∀ a, Commutes g (f a)) : Commutes g (x >>= f) := by
  intro s
  have hfirst := hx s
  rcases bind_cases x f s with ⟨a, s', hxs, hbind⟩ | ⟨e, s', hxs, hbind⟩
  · rw [hxs] at hfirst
    rw [hbind, bind_ok hfirst]
    exact hf a s'
  · rw [hxs] at hfirst
    rw [hbind, bind_error hfirst]
    rfl

end Commutes

/-! ## What a program ends with -/

/-- Started in `s` the program returns with `Q`, or throws with `E`. -/
def Ends (x : EStateM ε σ α) (s : σ) (Q : α → σ → Prop) (E : σ → Prop) : Prop :=
  match x s with
  | .ok a s' => Q a s'
  | .error _ s' => E s'

section Ends

variable {x : EStateM ε σ α} {f : α → EStateM ε σ β} {s : σ} {Q Q' : α → σ → Prop}
  {E E' : σ → Prop}

@[simp] theorem ends_pure {a : α} : Ends (Pure.pure a : EStateM ε σ α) s Q E ↔ Q a s := Iff.rfl

@[simp] theorem ends_throw {e : ε} : Ends (throw e : EStateM ε σ α) s Q E ↔ E s := Iff.rfl

@[simp] theorem ends_modify {g : σ → σ} {Q : PUnit → σ → Prop} :
    Ends (modify g : EStateM ε σ PUnit) s Q E ↔ Q ⟨⟩ (g s) := Iff.rfl

@[simp] theorem ends_get {Q : σ → σ → Prop} :
    Ends (MonadState.get : EStateM ε σ σ) s Q E ↔ Q s s := Iff.rfl

@[simp] theorem ends_bind {Q : β → σ → Prop} :
    Ends (x >>= f) s Q E ↔ Ends x s (fun a s' => Ends (f a) s' Q E) E := by
  unfold Ends
  rcases bind_cases x f s with ⟨a, s', hx, hbind⟩ | ⟨e, s', hx, hbind⟩
  · rw [hbind, hx]
  · rw [hbind, hx]

theorem Ends.mono (h : Ends x s Q E) (hQ : ∀ a s', Q a s' → Q' a s') (hE : ∀ s', E s' → E' s') :
    Ends x s Q' E' := by
  unfold Ends at h ⊢
  split
  · rename_i hx
    rw [hx] at h
    exact hQ _ _ h
  · rename_i hx
    rw [hx] at h
    exact hE _ h

theorem Ends.of_ok {a : α} {s' : σ} (h : Ends x s Q E) (hx : x s = .ok a s') : Q a s' := by
  unfold Ends at h
  rw [hx] at h
  exact h

/-- A program that does not throw. -/
theorem Ends.exists_ok (h : Ends x s Q fun _ => False) : ∃ a s', x s = .ok a s' ∧ Q a s' := by
  unfold Ends at h
  split at h
  · rename_i a s' hx
    exact ⟨a, s', hx, h⟩
  · exact h.elim

/-- What holds at either end holds of the state at the end. -/
theorem Ends.final {P : σ → Prop} (h : Ends x s (fun _ => P) P) : P (final (x s)) := by
  unfold Ends at h
  split at h
  · rename_i hx
    rw [hx]
    exact h
  · rename_i hx
    rw [hx]
    exact h

theorem ends_of_final {P : σ → Prop} (h : P (Fallible.final (x s))) : Ends x s (fun _ => P) P := by
  unfold Ends
  cases hx : x s with
  | ok a s' =>
      rw [hx] at h
      exact h
  | error e s' =>
      rw [hx] at h
      exact h

end Ends

/-! ## Two programs that do the same -/

section Simulates

variable {τ : Type} {good : σ → Prop} {R : σ → τ → Prop}

/-- From related states the programs return or throw the same, and end in related states. This is
asked for where the first ends in a good state, and only from good states it can. -/
structure Simulates (good : σ → Prop) (R : σ → τ → Prop) (x : EStateM ε σ α) (y : EStateM ε τ α) :
    Prop where
  back : Respects (.backward good) x
  same : ∀ s t, R s t → good (final (x s)) →
    outcome (x s) = outcome (y t) ∧ R (final (x s)) (final (y t))

namespace Simulates

theorem pure (a : α) :
    Simulates good R (Pure.pure a : EStateM ε σ α) (Pure.pure a : EStateM ε τ α) :=
  ⟨.pure a, fun _ _ hst _ => ⟨rfl, hst⟩⟩

theorem throw (e : ε) :
    Simulates good R (throw e : EStateM ε σ α) (throw e : EStateM ε τ α) :=
  ⟨.throw e, fun _ _ hst _ => ⟨rfl, hst⟩⟩

theorem bind {x : EStateM ε σ α} {y : EStateM ε τ α} {f : α → EStateM ε σ β}
    {g : α → EStateM ε τ β} (hx : Simulates good R x y) (hf : ∀ a, Simulates good R (f a) (g a)) :
    Simulates good R (x >>= f) (y >>= g) := by
  refine ⟨hx.back.bind fun a => (hf a).back, ?_⟩
  intro s t hst hgood
  have hmid := Respects.final_bind (x := x) (fun a => (hf a).back) s hgood
  rcases hx.same s t hst hmid with ⟨hout, hrel⟩
  -- both first parts return the same, or throw the same
  rcases bind_cases x f s with ⟨a, s', hxs, hbind⟩ | ⟨e, s', hxs, hbind⟩
  · rcases bind_cases y g t with ⟨b, t', hyt, hbind'⟩ | ⟨e', t', hyt, hbind'⟩
    · rw [hxs, hyt] at hout hrel
      cases hout
      rw [hbind] at hgood
      rw [hbind, hbind']
      exact (hf a).same s' t' hrel hgood
    · rw [hxs, hyt] at hout
      cases hout
  · rcases bind_cases y g t with ⟨b, t', hyt, hbind'⟩ | ⟨e', t', hyt, hbind'⟩
    · rw [hxs, hyt] at hout
      cases hout
    · rw [hxs, hyt] at hout hrel
      cases hout
      rw [hbind, hbind']
      exact ⟨rfl, hrel⟩

end Simulates

/-- Started in `s` and in `t` the programs return the same with `Q`, or throw the same with `E`. -/
def Alongside (x : EStateM ε σ α) (y : EStateM ε τ α) (s : σ) (t : τ) (Q : α → σ → τ → Prop)
    (E : σ → τ → Prop) : Prop :=
  match x s, y t with
  | .ok a s', .ok b t' => a = b ∧ Q a s' t'
  | .error e s', .error e' t' => e = e' ∧ E s' t'
  | _, _ => False

namespace Alongside

variable {x : EStateM ε σ α} {y : EStateM ε τ α} {f : α → EStateM ε σ β} {g : α → EStateM ε τ β}
  {s : σ} {t : τ} {Q Q' : α → σ → τ → Prop} {E E' : σ → τ → Prop}

theorem pure {a : α} (h : Q a s t) :
    Alongside (Pure.pure a : EStateM ε σ α) (Pure.pure a : EStateM ε τ α) s t Q E := ⟨rfl, h⟩

theorem throw {e : ε} (h : E s t) :
    Alongside (throw e : EStateM ε σ α) (throw e : EStateM ε τ α) s t Q E := ⟨rfl, h⟩

theorem mono (h : Alongside x y s t Q E) (hQ : ∀ a s' t', Q a s' t' → Q' a s' t')
    (hE : ∀ s' t', E s' t' → E' s' t') : Alongside x y s t Q' E' := by
  unfold Alongside at h ⊢
  split at h
  · exact ⟨h.1, hQ _ _ _ h.2⟩
  · exact ⟨h.1, hE _ _ h.2⟩
  · exact h.elim

theorem bind {R : β → σ → τ → Prop} (h : Alongside x y s t Q E)
    (hf : ∀ a s' t', Q a s' t' → Alongside (f a) (g a) s' t' R E) :
    Alongside (x >>= f) (y >>= g) s t R E := by
  unfold Alongside at h
  split at h
  · rename_i a s' b t' hx hy
    obtain ⟨rfl, hQ⟩ := h
    unfold Alongside
    rw [bind_ok hx, bind_ok hy]
    exact hf a s' t' hQ
  · rename_i e s' e' t' hx hy
    unfold Alongside
    rw [bind_error hx, bind_error hy]
    exact h
  · exact h.elim

/-- Programs that end alongside from all related states simulate each other. -/
theorem simulates (h : ∀ s t, R s t → Alongside x y s t (fun _ => R) R) :
    Simulates (fun _ => True) R x y := by
  refine ⟨fun _ _ => trivial, ?_⟩
  intro s t hst _
  have hends := h s t hst
  unfold Alongside at hends
  split at hends
  · rename_i hx hy
    rw [hx, hy]
    exact ⟨congrArg Except.ok hends.1, hends.2⟩
  · rename_i hx hy
    rw [hx, hy]
    exact ⟨congrArg Except.error hends.1, hends.2⟩
  · exact hends.elim

end Alongside

end Simulates

end Fallible
end Library
end UniqysKit
