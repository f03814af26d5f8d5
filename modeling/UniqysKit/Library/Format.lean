import Mathlib.Data.List.Basic
import Mathlib.Tactic.Common

/-!
# Formats that are read more widely than they are written

A format says how a value is read from the front of a list of symbols, and how it is written.  What
was written is always read back, but a reader may accept other lists as well, and may move on behind
the end of the list.  `asked` is how far it moves, and `Plain` says of a list that its front is what
would be written for the value that is read.
-/

namespace UniqysKit
namespace Library

structure Format (β α : Type) where
  Reads : List β → α → List β → Prop
  Writes : α → List β → Prop
  /-- How far the reader moves. -/
  asked : List β → Nat
  Plain : List β → Prop
  rest_eq : ∀ {l a rest}, Reads l a rest → rest = l.drop (asked l)
  unique : ∀ {l a a' rest rest'}, Reads l a rest → Reads l a' rest' → a = a'
  reads_append : ∀ {l a}, Writes a l → ∀ rest, Reads (l ++ rest) a rest
  plain_iff : ∀ {l a rest}, Reads l a rest → asked l ≤ l.length →
    (Plain l ↔ Writes a (l.take (asked l)))

namespace Format

variable {β α γ τ : Type}

/-- What was written ends where its reader stops. -/
theorem eq_take_of_writes (f : Format β α) {l rest : List β} {a : α} (h : f.Writes a l)
    (hasked : f.asked (l ++ rest) ≤ (l ++ rest).length) :
    l = (l ++ rest).take (f.asked (l ++ rest)) ∧ rest = (l ++ rest).drop (f.asked (l ++ rest)) := by
  have hrest := f.rest_eq (f.reads_append h rest)
  have hlength := congrArg List.length hrest
  rw [List.length_drop, List.length_append] at hlength
  rw [List.length_append] at hasked
  have heq : f.asked (l ++ rest) = l.length := by omega
  refine ⟨?_, hrest⟩
  rw [heq, List.take_left]

/-! ## Fixed symbols -/

/-- No symbol, for one value. -/
def nothing (a : α) : Format β α where
  Reads l v rest := v = a ∧ rest = l
  Writes v l := v = a ∧ l = []
  asked _ := 0
  Plain _ := True
  rest_eq := by
    rintro l v rest ⟨-, rfl⟩
    rfl
  unique := by
    rintro l v v' rest rest' ⟨rfl, -⟩ ⟨rfl, -⟩
    rfl
  reads_append := by
    rintro l v ⟨rfl, rfl⟩ rest
    exact ⟨rfl, rfl⟩
  plain_iff := by
    rintro l v rest ⟨rfl, -⟩ -
    simp

/-- A format of no value. -/
def impossible : Format β α where
  Reads _ _ _ := False
  Writes _ _ := False
  asked _ := 0
  Plain _ := True
  rest_eq := False.elim
  unique h := h.elim
  reads_append := False.elim
  plain_iff h := h.elim

/-- A number of symbols. -/
def fixed (n : Nat) : Format β (List β) where
  Reads l a rest := a.length = n ∧ l = a ++ rest
  Writes a l := a.length = n ∧ l = a
  asked _ := n
  Plain _ := True
  rest_eq := by
    rintro l a rest ⟨rfl, rfl⟩
    rw [List.drop_left]
  unique := by
    rintro l a a' rest rest' ⟨hlength, rfl⟩ ⟨hlength', heq⟩
    exact (List.append_inj heq (hlength.trans hlength'.symm)).1
  reads_append := by
    rintro l a ⟨hlength, rfl⟩ rest
    exact ⟨hlength, rfl⟩
  plain_iff := by
    rintro l a rest ⟨rfl, rfl⟩ -
    simp

/-- A number of symbols, or as many as there are. -/
def upTo (n : Nat) : Format β (List β) where
  Reads l a rest := a = l.take n ∧ rest = l.drop n
  Writes a l := a.length = n ∧ l = a
  asked _ := n
  Plain _ := True
  rest_eq := And.right
  unique := by
    rintro l a a' rest rest' ⟨rfl, -⟩ ⟨rfl, -⟩
    rfl
  reads_append := by
    rintro l a ⟨rfl, rfl⟩ rest
    simp
  plain_iff := by
    rintro l a rest ⟨rfl, -⟩ hn
    simp [hn]

/-- Symbols that are not looked at. -/
def padding (fill : List β) : Format β Unit where
  Reads l _ rest := fill.length ≤ l.length ∧ rest = l.drop fill.length
  Writes _ l := l = fill
  asked _ := fill.length
  Plain l := l.take fill.length = fill
  rest_eq := And.right
  unique _ _ := rfl
  reads_append := by
    rintro l _ rfl rest
    simp
  plain_iff _ _ := Iff.rfl

/-! ## Values from values -/

/-- Values that are one to one with those of a format. -/
def map (f : Format β α) (Parts : γ → α → Prop) (hparts : ∀ {v a a'}, Parts v a → Parts v a' → a = a')
    (hvalue : ∀ {v v' a}, Parts v a → Parts v' a → v = v') : Format β γ where
  Reads l v rest := ∃ a, Parts v a ∧ f.Reads l a rest
  Writes v l := ∃ a, Parts v a ∧ f.Writes a l
  asked := f.asked
  Plain := f.Plain
  rest_eq := by
    rintro l v rest ⟨a, -, h⟩
    exact f.rest_eq h
  unique := by
    rintro l v v' rest rest' ⟨a, hv, h⟩ ⟨a', hv', h'⟩
    cases f.unique h h'
    exact hvalue hv hv'
  reads_append := by
    rintro l v ⟨a, hv, h⟩ rest
    exact ⟨a, hv, f.reads_append h rest⟩
  plain_iff := by
    rintro l v rest ⟨a, hv, h⟩ hasked
    rw [f.plain_iff h hasked]
    constructor
    · intro hwrites
      exact ⟨a, hv, hwrites⟩
    · rintro ⟨a', hv', hwrites⟩
      rw [hparts hv hv']
      exact hwrites

/-- Values that several values of a format are read as. -/
def coarsen (f : Format β α) (read : α → γ) (write : γ → α) (hread : ∀ v, read (write v) = v) :
    Format β γ where
  Reads l v rest := ∃ a, f.Reads l a rest ∧ v = read a
  Writes v l := f.Writes (write v) l
  asked := f.asked
  Plain l := f.Plain l ∧ ∀ a rest, f.Reads l a rest → ∃ v, a = write v
  rest_eq := by
    rintro l v rest ⟨a, h, -⟩
    exact f.rest_eq h
  unique := by
    rintro l v v' rest rest' ⟨a, h, rfl⟩ ⟨a', h', rfl⟩
    rw [f.unique h h']
  reads_append := by
    intro l v h rest
    exact ⟨write v, f.reads_append h rest, (hread v).symm⟩
  plain_iff := by
    rintro l v rest ⟨a, h, rfl⟩ hasked
    constructor
    · rintro ⟨hplain, hspelled⟩
      rcases hspelled a rest h with ⟨v, rfl⟩
      rw [hread]
      exact (f.plain_iff h hasked).mp hplain
    · intro hwrites
      have hback := f.reads_append hwrites (l.drop (f.asked l))
      rw [List.take_append_drop] at hback
      have ha := f.unique h hback
      refine ⟨(f.plain_iff h hasked).mpr (by rw [ha]; exact hwrites), ?_⟩
      intro a' rest' h'
      exact ⟨read a, (f.unique h' h).trans ha⟩

/-- The same format, with its reading and writing described otherwise. -/
def describe (f : Format β α) (Reads : List β → α → List β → Prop) (Writes : α → List β → Prop)
    (hreads : ∀ l a rest, Reads l a rest ↔ f.Reads l a rest) (hwrites : ∀ a l, Writes a l ↔ f.Writes a l) :
    Format β α where
  Reads := Reads
  Writes := Writes
  asked := f.asked
  Plain := f.Plain
  rest_eq h := f.rest_eq ((hreads _ _ _).mp h)
  unique h h' := f.unique ((hreads _ _ _).mp h) ((hreads _ _ _).mp h')
  reads_append h rest := (hreads _ _ _).mpr (f.reads_append ((hwrites _ _).mp h) rest)
  plain_iff h hasked := (f.plain_iff ((hreads _ _ _).mp h) hasked).trans (hwrites _ _).symm

/-! ## One value behind another -/

section Behind

variable {f : Format β τ} {g : Format β α} {l mid rest : List β} {t : τ} {v : α}

/-- How far the readers of two values move. -/
def askedBehind (f : Format β τ) (g : Format β α) (l : List β) : Nat :=
  f.asked l + g.asked (l.drop (f.asked l))

theorem rest_behind (hf : f.Reads l t mid) (hg : g.Reads mid v rest) :
    rest = l.drop (askedBehind f g l) := by
  rw [askedBehind, ← List.drop_drop, ← f.rest_eq hf]
  exact g.rest_eq hg

theorem unique_behind {mid' rest' : List β} {v' : α} (hf : f.Reads l t mid) (hg : g.Reads mid v rest)
    (hf' : f.Reads l t mid') (hg' : g.Reads mid' v' rest') : v = v' := by
  rw [f.rest_eq hf] at hg
  rw [f.rest_eq hf'] at hg'
  exact g.unique hg hg'

/-- Two values are spelled as they are written if each of them is. -/
theorem plain_behind (hf : f.Reads l t mid) (hg : g.Reads mid v rest)
    (hasked : askedBehind f g l ≤ l.length) :
    f.Plain l ∧ g.Plain (l.drop (f.asked l)) ↔
      ∃ x y, f.Writes t x ∧ g.Writes v y ∧ l.take (askedBehind f g l) = x ++ y := by
  obtain rfl := f.rest_eq hf
  unfold askedBehind at hasked ⊢
  have hle : f.asked l ≤ l.length := by omega
  have hle' : g.asked (l.drop (f.asked l)) ≤ (l.drop (f.asked l)).length := by
    rw [List.length_drop]
    omega
  rw [f.plain_iff hf hle, g.plain_iff hg hle', List.take_add]
  constructor
  · rintro ⟨hfirst, hsecond⟩
    exact ⟨_, _, hfirst, hsecond, rfl⟩
  · rintro ⟨x, y, hfirst, hsecond, hxy⟩
    -- what was written first is read first, so the two spellings part at the same place
    have hl : x ++ (y ++ (l.drop (f.asked l)).drop (g.asked (l.drop (f.asked l)))) = l := by
      rw [← List.append_assoc, ← hxy, List.append_assoc, List.take_append_drop, List.take_append_drop]
    have hx := (f.eq_take_of_writes hfirst (by rw [hl]; exact hle)).1
    rw [hl] at hx
    have hy : y = (l.drop (f.asked l)).take (g.asked (l.drop (f.asked l))) := by
      rw [← hx] at hxy
      exact (List.append_cancel_left hxy).symm
    rw [← hx, ← hy]
    exact ⟨hfirst, hsecond⟩

end Behind

/-- Two values. -/
def pair (f : Format β τ) (g : Format β α) : Format β (τ × α) where
  Reads l p rest := ∃ mid, f.Reads l p.1 mid ∧ g.Reads mid p.2 rest
  Writes p l := ∃ x y, f.Writes p.1 x ∧ g.Writes p.2 y ∧ l = x ++ y
  asked := askedBehind f g
  Plain l := f.Plain l ∧ g.Plain (l.drop (f.asked l))
  rest_eq := by
    rintro l p rest ⟨mid, hf, hg⟩
    exact rest_behind hf hg
  unique := by
    rintro l ⟨t, v⟩ ⟨t', v'⟩ rest rest' ⟨mid, hf, hg⟩ ⟨mid', hf', hg'⟩
    obtain rfl : t = t' := f.unique hf hf'
    exact congrArg (Prod.mk t) (unique_behind hf hg hf' hg')
  reads_append := by
    rintro l p ⟨x, y, hf, hg, rfl⟩ rest
    rw [List.append_assoc]
    exact ⟨y ++ rest, f.reads_append hf _, g.reads_append hg rest⟩
  plain_iff := by
    rintro l p rest ⟨mid, hf, hg⟩ hasked
    exact plain_behind hf hg hasked

/-- A value whose format depends on one before it.  `peek` is the first value as the list shows it,
and `kind` is the first value that belongs to the second one. -/
def tagged (tag : Format β τ) (peek : List β → τ) (hpeek : ∀ {l t rest}, tag.Reads l t rest → peek l = t)
    (kind : α → τ) (body : τ → Format β α)
    (hkind : ∀ {t l v rest}, (body t).Reads l v rest → (body t).asked l ≤ l.length → kind v = t) :
    Format β α where
  Reads l v rest := ∃ t mid, tag.Reads l t mid ∧ (body t).Reads mid v rest
  Writes v l := ∃ x y, tag.Writes (kind v) x ∧ (body (kind v)).Writes v y ∧ l = x ++ y
  asked l := askedBehind tag (body (peek l)) l
  Plain l := tag.Plain l ∧ (body (peek l)).Plain (l.drop (tag.asked l))
  rest_eq := by
    rintro l v rest ⟨t, mid, htag, hbody⟩
    rw [hpeek htag]
    exact rest_behind htag hbody
  unique := by
    rintro l v v' rest rest' ⟨t, mid, htag, hbody⟩ ⟨t', mid', htag', hbody'⟩
    obtain rfl : t = t' := tag.unique htag htag'
    exact unique_behind htag hbody htag' hbody'
  reads_append := by
    rintro l v ⟨x, y, htag, hbody, rfl⟩ rest
    rw [List.append_assoc]
    exact ⟨kind v, y ++ rest, tag.reads_append htag _, (body _).reads_append hbody rest⟩
  plain_iff := by
    rintro l v rest ⟨t, mid, htag, hbody⟩ hasked
    obtain rfl := hpeek htag
    obtain rfl := tag.rest_eq htag
    have hv : kind v = peek l := hkind hbody (by
      rw [askedBehind] at hasked
      rw [List.length_drop]
      omega)
    rw [hv]
    exact plain_behind htag hbody hasked

/-! ## Lists -/

/-- A number of values. -/
def many (f : Format β α) : Nat → Format β (List α)
  | 0 => nothing []
  | n + 1 => (pair f (many f n)).map (fun values p => values = p.1 :: p.2)
      (by
        rintro values ⟨a, as⟩ ⟨a', as'⟩ rfl heq
        cases heq
        rfl)
      (by
        rintro values values' p rfl rfl
        rfl)

variable {f : Format β α}

theorem length_of_many {n : Nat} {l rest : List β} {values : List α}
    (h : (f.many n).Reads l values rest) : values.length = n := by
  induction n generalizing l values with
  | zero =>
      rcases h with ⟨rfl, -⟩
      rfl
  | succ n ih =>
      rcases h with ⟨⟨a, as⟩, rfl, mid, -, has⟩
      rw [List.length_cons, ih has]

/-- Values behind their number. -/
def counted (count : Format β Nat) (peek : List β → Nat)
    (hpeek : ∀ {l n rest}, count.Reads l n rest → peek l = n) (f : Format β α) : Format β (List α) :=
  tagged count peek hpeek List.length f.many fun h _ => length_of_many h

end Format

end Library
end UniqysKit
