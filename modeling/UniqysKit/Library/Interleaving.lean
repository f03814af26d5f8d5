import Mathlib
import UniqysKit.Library.Program

/-!
# Interleaved programs

Programs that share a map from keys to values take turns, one operation at a time.  An operation looks
at some keys and overwrites some.  If no operation looks at a key that a program still under way has
overwritten, and none overwrites a key that such a program has looked at or overwritten, then the
programs come to what they come to one after another, in the order in which they finish.

`Serial` is the invariant behind this, with one rule for each kind of step: a program begins, makes an
operation, or finishes.
-/

namespace UniqysKit
namespace Library

/-- What operations do with a shared map: an answer, which depends on the keys looked at, and new values
for the keys overwritten, which do not depend on the old ones. -/
structure Shared {Op : Type} (Res : Op → Type) (κ ν : Type) where
  answer : (op : Op) → (κ → ν) → Res op
  effect : Op → (κ → ν) → κ → ν
  reads : Op → Set κ
  writes : Op → Set κ
  answer_congr : ∀ {op f g}, Set.EqOn f g (reads op) → answer op f = answer op g
  effect_congr : ∀ {op f g k}, k ∈ writes op → effect op f k = effect op g k
  effect_other : ∀ {op f k}, k ∉ writes op → effect op f k = f k

namespace Shared

variable {ε α Op κ ν : Type} {Res : Op → Type} (S : Shared Res κ ν)

/-- The operation as a step on the map. -/
def act (op : Op) : EStateM ε (κ → ν) (Res op) := fun f => .ok (S.answer op f) (S.effect op f)

/-- Neither operation overwrites what the other looks at or overwrites. -/
structure Apart (op op' : Op) : Prop where
  writes_reads : Disjoint (S.writes op) (S.reads op')
  reads_writes : Disjoint (S.reads op) (S.writes op')
  writes_writes : Disjoint (S.writes op) (S.writes op')

/-- The keys that the operations look at. -/
def readBy (log : List Op) : Set κ := {k | ∃ op ∈ log, k ∈ S.reads op}

/-- The keys that the operations overwrite. -/
def writtenBy (log : List Op) : Set κ := {k | ∃ op ∈ log, k ∈ S.writes op}

/-- The program has come from `f` to `g`, with these operations, and nothing came between. -/
inductive Alone (p : Program ε Res α) (f : κ → ν) : List Op → Program ε Res α → (κ → ν) → Prop
  | start : Alone p f [] p f
  | next {log : List Op} {op : Op} {next : Res op → Program ε Res α} {g : κ → ν} :
      Alone p f log (.call op next) g →
        Alone p f (log ++ [op]) (next (S.answer op g)) (S.effect op g)

/-- A program under way: how it began, what is left of it, and its operations so far. -/
structure Task (ε : Type) {Op : Type} (Res : Op → Type) (α : Type) where
  start : Program ε Res α
  now : Program ε Res α
  log : List Op

/-- The programs one after another: what each comes to, and the map in the end. -/
def serveAll : List (Program ε Res α) → (κ → ν) → List (Except ε α) × (κ → ν)
  | [], f => ([], f)
  | p :: ps, f =>
      let result := p.run S.act f
      let rest := serveAll ps (Fallible.final result)
      (Fallible.outcome result :: rest.1, rest.2)

variable {S} {p p' : Program ε Res α} {f f' g m : κ → ν} {log : List Op} {k : κ}

theorem Apart.symm {op op' : Op} (h : S.Apart op op') : S.Apart op' op :=
  ⟨h.reads_writes.symm, h.writes_reads.symm, h.writes_writes.symm⟩

theorem mem_writtenBy_append {op : Op} :
    k ∈ S.writtenBy (log ++ [op]) ↔ k ∈ S.writtenBy log ∨ k ∈ S.writes op := by
  simp only [writtenBy, Set.mem_ofPred_eq, List.mem_append, List.mem_singleton, or_and_right,
    exists_or, exists_eq_left]

theorem serveAll_append (ps : List (Program ε Res α)) (f : κ → ν) :
    S.serveAll (ps ++ [p]) f =
      ((S.serveAll ps f).1 ++ [Fallible.outcome (p.run S.act (S.serveAll ps f).2)],
        Fallible.final (p.run S.act (S.serveAll ps f).2)) := by
  induction ps generalizing f with
  | nil => rfl
  | cons first ps ih => simp only [List.cons_append, serveAll, ih]

/-! ## A map over another one -/

variable (S) in
open Classical in
/-- The values of `g` under the keys that the operations overwrite, and those of `f` elsewhere. -/
noncomputable def overlay (log : List Op) (g f : κ → ν) : κ → ν :=
  fun k => if k ∈ S.writtenBy log then g k else f k

theorem overlay_of_mem (hk : k ∈ S.writtenBy log) : S.overlay log g f k = g k := if_pos hk

theorem overlay_of_notMem (hk : k ∉ S.writtenBy log) : S.overlay log g f k = f k := if_neg hk

theorem overlay_nil : S.overlay [] g f = f :=
  funext fun k => overlay_of_notMem (by simp [writtenBy])

theorem overlay_overlay : S.overlay log (S.overlay log g f) f' = S.overlay log g f' := by
  funext k
  by_cases hk : k ∈ S.writtenBy log
  · rw [overlay_of_mem hk, overlay_of_mem hk, overlay_of_mem hk]
  · rw [overlay_of_notMem hk, overlay_of_notMem hk]

/-- An operation that overwrites none of these keys does not show. -/
theorem overlay_effect {op : Op} (h : ∀ k ∈ S.writtenBy log, k ∉ S.writes op) :
    S.overlay log (S.effect op g) f = S.overlay log g f := by
  funext k
  by_cases hk : k ∈ S.writtenBy log
  · rw [overlay_of_mem hk, overlay_of_mem hk, S.effect_other (h k hk)]
  · rw [overlay_of_notMem hk, overlay_of_notMem hk]

/-- One more operation, below or above. -/
theorem effect_overlay (op : Op) :
    S.effect op (S.overlay log g f) = S.overlay (log ++ [op]) (S.effect op g) f := by
  funext k
  by_cases hop : k ∈ S.writes op
  · rw [overlay_of_mem (mem_writtenBy_append.mpr (.inr hop))]
    exact S.effect_congr hop
  · rw [S.effect_other hop]
    by_cases hk : k ∈ S.writtenBy log
    · rw [overlay_of_mem hk, overlay_of_mem (mem_writtenBy_append.mpr (.inl hk)), S.effect_other hop]
    · have hnone : k ∉ S.writtenBy (log ++ [op]) := by
        rw [mem_writtenBy_append, not_or]
        exact ⟨hk, hop⟩
      rw [overlay_of_notMem hk, overlay_of_notMem hnone]

/-- The answer is that of the upper map, if the two agree on what is not overwritten. -/
theorem answer_overlay {op : Op} (h : ∀ k ∈ S.reads op, k ∉ S.writtenBy log → g k = f k) :
    S.answer op (S.overlay log g f) = S.answer op g := by
  refine S.answer_congr ?_
  intro k hk
  by_cases hw : k ∈ S.writtenBy log
  · exact overlay_of_mem hw
  · rw [overlay_of_notMem hw, h k hk hw]

/-! ## Programs that nothing comes between -/

/-- The rest of the program goes on from where it is. -/
theorem Alone.run_eq (h : S.Alone p f log p' g) : p.run S.act f = p'.run S.act g := by
  induction h with
  | start => rfl
  | next _ ih => exact ih

theorem Alone.of_not_written (h : S.Alone p f log p' g) (hk : k ∉ S.writtenBy log) : g k = f k := by
  induction h with
  | start => rfl
  | next _ ih =>
      rw [mem_writtenBy_append, not_or] at hk
      exact (S.effect_other hk.2).trans (ih hk.1)

/-- On a map that agrees where the program has looked, it has come as far. -/
theorem Alone.congr (h : S.Alone p f log p' g) (heq : Set.EqOn f f' (S.readBy log)) :
    S.Alone p f' log p' (S.overlay log g f') := by
  induction h with
  | start =>
      rw [overlay_nil]
      exact .start
  | @next log op next g hlog ih =>
      have hstep := Alone.next (ih fun k ⟨op', hop', hk⟩ => heq ⟨op', by simp [hop'], hk⟩)
      have hanswer : S.answer op (S.overlay log g f') = S.answer op g := by
        refine answer_overlay ?_
        intro k hk hw
        rw [hlog.of_not_written hw]
        exact heq ⟨op, by simp, hk⟩
      rw [hanswer, effect_overlay] at hstep
      exact hstep

/-! ## Programs that take turns -/

variable (S) in
/-- The finished programs, in this order, have come to what they come to one after another from `f`.
Each program under way is as far as it would be alone after them; the shared map `m` has the values that
they have written, and otherwise those after the finished ones. -/
structure Serial (f : κ → ν) (finished : List (Program ε Res α × Except ε α))
    (tasks : List (Task ε Res α)) (m : κ → ν) : Prop where
  answers : (S.serveAll (finished.map Prod.fst) f).1 = finished.map Prod.snd
  alone : ∀ task ∈ tasks, S.Alone task.start (S.serveAll (finished.map Prod.fst) f).2 task.log
    task.now (S.overlay task.log m (S.serveAll (finished.map Prod.fst) f).2)
  rest : ∀ k, (∀ task ∈ tasks, k ∉ S.writtenBy task.log) →
    m k = (S.serveAll (finished.map Prod.fst) f).2 k
  apart : tasks.Pairwise fun task task' => ∀ op ∈ task.log, ∀ op' ∈ task'.log, S.Apart op op'

variable {finished : List (Program ε Res α × Except ε α)} {task : Task ε Res α}
  {tasks tasks' others : List (Task ε Res α)}

theorem serial_nil (f : κ → ν) : S.Serial f ([] : List (Program ε Res α × Except ε α)) [] f :=
  ⟨rfl, by simp, fun _ _ => rfl, .nil⟩

/-- When nothing is under way, the map is that after the finished programs. -/
theorem Serial.eq_of_nil (h : S.Serial f finished [] m) :
    m = (S.serveAll (finished.map Prod.fst) f).2 :=
  funext fun k => h.rest k (by simp)

/-- The order of the programs under way does not matter. -/
theorem Serial.perm (h : S.Serial f finished tasks m) (hperm : tasks.Perm tasks') :
    S.Serial f finished tasks' m := by
  refine ⟨h.answers, ?_, ?_, ?_⟩
  · intro task htask
    exact h.alone task (hperm.mem_iff.mpr htask)
  · intro k hk
    exact h.rest k fun task htask => hk task (hperm.mem_iff.mp htask)
  · refine h.apart.perm hperm ?_
    intro task task' hapart op hop op' hop'
    exact (hapart op' hop' op hop).symm

/-- A program begins. -/
theorem Serial.begin (h : S.Serial f finished tasks m) (p : Program ε Res α) :
    S.Serial f finished (⟨p, p, []⟩ :: tasks) m := by
  refine ⟨h.answers, ?_, ?_, ?_⟩
  · intro task htask
    rcases List.mem_cons.mp htask with rfl | htask
    · rw [overlay_nil]
      exact .start
    · exact h.alone task htask
  · intro k hk
    exact h.rest k fun task htask => hk task (List.mem_cons_of_mem _ htask)
  · exact List.pairwise_cons.mpr ⟨by simp, h.apart⟩

/-- A program makes an operation, apart from those of the others under way. -/
theorem Serial.operate (h : S.Serial f finished (task :: others) m) {op : Op}
    {next : Res op → Program ε Res α} (hnow : task.now = .call op next)
    (hop : ∀ other ∈ others, ∀ op' ∈ other.log, S.Apart op op') :
    S.Serial f finished (⟨task.start, next (S.answer op m), task.log ++ [op]⟩ :: others)
      (S.effect op m) := by
  have halone := h.alone task (List.mem_cons_self ..)
  rw [hnow] at halone
  have hrest := h.rest
  -- what the others have written is not looked at and not overwritten
  have hreads : ∀ k ∈ S.reads op, ∀ other ∈ others, k ∉ S.writtenBy other.log := by
    rintro k hk other hother ⟨op', hop', hk'⟩
    exact Set.disjoint_left.mp (hop other hother op' hop').reads_writes hk hk'
  have hwrites : ∀ other ∈ others, ∀ k ∈ S.writtenBy other.log, k ∉ S.writes op := by
    rintro other hother k ⟨op', hop', hk'⟩ hk
    exact Set.disjoint_left.mp (hop other hother op' hop').writes_writes hk hk'
  refine ⟨h.answers, ?_, ?_, ?_⟩
  · intro task' htask'
    rcases List.mem_cons.mp htask' with rfl | hother
    · have hstep := halone.next
      rw [answer_overlay, effect_overlay] at hstep
      · exact hstep
      · intro k hk hw
        refine hrest k ?_
        intro other hother
        rcases List.mem_cons.mp hother with rfl | hother
        · exact hw
        · exact hreads k hk other hother
    · rw [overlay_effect (hwrites task' hother)]
      exact h.alone task' (List.mem_cons_of_mem _ hother)
  · intro k hk
    have hself := hk _ (List.mem_cons_self ..)
    rw [mem_writtenBy_append, not_or] at hself
    rw [S.effect_other hself.2]
    refine hrest k ?_
    intro other hother
    rcases List.mem_cons.mp hother with rfl | hother
    · exact hself.1
    · exact hk other (List.mem_cons_of_mem _ hother)
  · rcases List.pairwise_cons.mp h.apart with ⟨hfirst, hothers⟩
    refine List.pairwise_cons.mpr ⟨?_, hothers⟩
    intro other hother op₁ hop₁ op' hop'
    rcases List.mem_append.mp hop₁ with hop₁ | hop₁
    · exact hfirst other hother op₁ hop₁ op' hop'
    · rw [List.mem_singleton.mp hop₁]
      exact hop other hother op' hop'

/-- A program finishes, as the next in the order. -/
theorem Serial.finish (h : S.Serial f finished (task :: others) m) {answer : Except ε α}
    (hnow : task.now = .done answer) :
    S.Serial f (finished ++ [(task.start, answer)]) others m := by
  have halone := h.alone task (List.mem_cons_self ..)
  rw [hnow] at halone
  -- the program alone comes to its answer, and to the map over that after the finished ones
  have hserved : S.serveAll ((finished ++ [(task.start, answer)]).map Prod.fst) f =
      ((S.serveAll (finished.map Prod.fst) f).1 ++ [answer],
        S.overlay task.log m (S.serveAll (finished.map Prod.fst) f).2) := by
    rw [List.map_append, List.map_singleton, serveAll_append, halone.run_eq]
    cases answer with
    | ok a => rfl
    | error e => rfl
  rcases List.pairwise_cons.mp h.apart with ⟨hfirst, hpairs⟩
  refine ⟨?_, ?_, ?_, hpairs⟩
  · rw [hserved, h.answers, List.map_append, List.map_singleton]
  · intro other hother
    rw [hserved]
    -- what the other has looked at is not what this program has written
    have hreads : Set.EqOn (S.serveAll (finished.map Prod.fst) f).2
        (S.overlay task.log m (S.serveAll (finished.map Prod.fst) f).2) (S.readBy other.log) := by
      rintro k ⟨op', hop', hk'⟩
      refine (overlay_of_notMem ?_).symm
      rintro ⟨op, hop, hk⟩
      exact Set.disjoint_left.mp (hfirst other hother op hop op' hop').writes_reads hk hk'
    have hsame := (h.alone other (List.mem_cons_of_mem _ hother)).congr hreads
    rw [overlay_overlay] at hsame
    exact hsame
  · intro k hk
    rw [hserved]
    by_cases hw : k ∈ S.writtenBy task.log
    · exact (overlay_of_mem hw).symm
    · refine (h.rest k ?_).trans (overlay_of_notMem hw).symm
      intro other hother
      rcases List.mem_cons.mp hother with rfl | hother
      · exact hw
      · exact hk other hother

end Shared

end Library
end UniqysKit
