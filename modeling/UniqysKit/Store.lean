import UniqysKit.Library.EntryMap
import UniqysKit.Serialize

/-!
# Stores in memory and their namespaces

`InMemoryStore` and `Namespace` of `packages/store`.  The keys of the map are hexadecimal texts, here
lists of characters, and `clear` deletes those that a regular expression matches, which is `^` and the
text of the prefix.

`ClearableMap` is what a store is for: a map on buffers whose keys with a prefix can be cleared.
-/

namespace UniqysKit

open Library

/-! ## Hexadecimal texts -/

/-- A hexadecimal digit. -/
def hexDigit (n : Nat) : Char :=
  ['0', '1', '2', '3', '4', '5', '6', '7', '8', '9', 'a', 'b', 'c', 'd', 'e', 'f'].getD n '0'

def hexByte (byte : UInt8) : List Char := [hexDigit (byte.toNat / 16), hexDigit (byte.toNat % 16)]

/-- `key.toString('hex')`. -/
def toHex (key : Bytes) : List Char := key.flatMap hexByte

/-- What a regular expression matches that is `^` and characters which stand for themselves. -/
def matchesStart (text key : List Char) : Bool := text.isPrefixOf key

theorem hexDigit_inj : ∀ m < 16, ∀ n < 16, hexDigit m = hexDigit n → m = n := by decide

theorem hexByte_inj {byte other : UInt8} (h : hexByte byte = hexByte other) : byte = other := by
  have hlt := byte.toNat_lt
  have hlt' := other.toNat_lt
  simp only [hexByte, List.cons.injEq, and_true] at h
  have hhigh := hexDigit_inj _ (by omega) _ (by omega) h.1
  have hlow := hexDigit_inj _ (by omega) _ (by omega) h.2
  exact UInt8.toNat_inj.mp (by omega)

/-- A text starts with another one where the bytes do. -/
theorem toHex_prefix_iff {start key : Bytes} : toHex start <+: toHex key ↔ start <+: key := by
  induction start generalizing key with
  | nil => simp [toHex]
  | cons byte start ih =>
      cases key with
      | nil => simp [toHex, hexByte]
      | cons other key =>
          rw [toHex, toHex, List.flatMap_cons, List.flatMap_cons, List.cons_prefix_cons]
          constructor
          · intro h
            simp only [hexByte, List.cons_append, List.nil_append, List.cons_prefix_cons] at h
            rcases h with ⟨hhigh, hlow, hrest⟩
            exact ⟨hexByte_inj (by rw [hexByte, hexByte, hhigh, hlow]), ih.mp hrest⟩
          · rintro ⟨rfl, h⟩
            exact (List.prefix_append_right_inj (hexByte byte)).mpr (ih.mpr h)

theorem toHex_inj {key other : Bytes} : toHex key = toHex other ↔ key = other := by
  constructor
  · intro h
    have hstart : toHex key <+: toHex other := ⟨[], by rw [List.append_nil, h]⟩
    have hback : toHex other <+: toHex key := ⟨[], by rw [List.append_nil, h]⟩
    exact (toHex_prefix_iff.mp hstart).eq_of_length_le (toHex_prefix_iff.mp hback).length_le
  · rintro rfl
    rfl

/-! ## The stores -/

section Stores

variable {V : Type}

/-- What a call asks for. -/
inductive StoreCall (V : Type)
  | get (key : Bytes)
  | set (key : Bytes) (value : V)
  | delete (key : Bytes)
  | clear (start : Option Bytes)

structure InMemoryStore (V : Type) where
  store : EntryMap (List Char) V

namespace InMemoryStore

/-- `value ? Optional.some(value) : Optional.none()`, where `truthy` tells which values are taken for
true. -/
def get (truthy : V → Bool) (key : Bytes) (base : InMemoryStore V) : Option V :=
  match base.store.get (toHex key) with
  | some value => if truthy value then some value else none
  | none => none

def set (key : Bytes) (value : V) (base : InMemoryStore V) : InMemoryStore V :=
  ⟨base.store.set (toHex key) value⟩

def delete (key : Bytes) (base : InMemoryStore V) : InMemoryStore V :=
  ⟨base.store.delete (toHex key)⟩

/-- A buffer is taken for true also where it is empty. -/
def clear (start : Option Bytes) (base : InMemoryStore V) : InMemoryStore V :=
  match start with
  | some start =>
      ⟨base.store.keys.foldl (fun store key =>
        if matchesStart (toHex start) key then store.delete key else store) base.store⟩
  | none => ⟨.empty⟩

end InMemoryStore

structure Namespace where
  spacePrefix : Bytes

namespace Namespace

/-- The prefix is a buffer, or a text whose bytes are taken. -/
def new : Bytes ⊕ String → Namespace
  | .inl bytes => ⟨bytes⟩
  | .inr text => ⟨text.toUTF8.toList⟩

def fullKey (space : Namespace) (key : Bytes) : Bytes := space.spacePrefix ++ key

def get (truthy : V → Bool) (key : Bytes) (space : Namespace) (base : InMemoryStore V) : Option V :=
  base.get truthy (space.fullKey key)

def set (key : Bytes) (value : V) (space : Namespace) (base : InMemoryStore V) : InMemoryStore V :=
  base.set (space.fullKey key) value

def delete (key : Bytes) (space : Namespace) (base : InMemoryStore V) : InMemoryStore V :=
  base.delete (space.fullKey key)

def clear (start : Option Bytes) (space : Namespace) (base : InMemoryStore V) : InMemoryStore V :=
  base.clear (match start with
    | some start => some (space.fullKey start)
    | none => some space.spacePrefix)

/-- What a call returns, and the base store after it. -/
def serve (truthy : V → Bool) (space : Namespace) (base : InMemoryStore V) :
    StoreCall V → Option V × InMemoryStore V
  | .get key => (space.get truthy key base, base)
  | .set key value => (none, space.set key value base)
  | .delete key => (none, space.delete key base)
  | .clear start => (none, space.clear start base)

end Namespace

/-! ## What a store is for -/

/-- A map on buffers. -/
abbrev ClearableMap (V : Type) := Bytes → Option V

namespace ClearableMap

def serve (content : ClearableMap V) : StoreCall V → Option V × ClearableMap V
  | .get key => (content key, content)
  | .set key value => (none, Function.update content key (some value))
  | .delete key => (none, Function.update content key none)
  | .clear (some start) => (none, fun key => if start <+: key then none else content key)
  | .clear none => (none, fun _ => none)

/-- The answers to the calls one after another. -/
def serveAll : ClearableMap V → List (StoreCall V) → List (Option V)
  | _, [] => []
  | content, call :: calls => (content.serve call).1 :: serveAll (content.serve call).2 calls

end ClearableMap

/-- One of two views on a base store. -/
inductive View
  | first
  | second
  deriving DecidableEq

/-- The answers to calls on two views of one base store, each with the view it is from. -/
def serveViews (truthy : V → Bool) (space : View → Namespace) :
    InMemoryStore V → List (View × StoreCall V) → List (View × Option V)
  | _, [] => []
  | base, (view, call) :: calls =>
      let (answer, base) := (space view).serve truthy base call
      (view, answer) :: serveViews truthy space base calls

/-- What is of one view. -/
def ofView {α : Type} (view : View) (list : List (View × α)) : List α :=
  list.filterMap fun entry => if entry.1 = view then some entry.2 else none

/-- What a view has. -/
def Namespace.content (truthy : V → Bool) (space : Namespace) (base : InMemoryStore V) :
    ClearableMap V :=
  fun key => space.get truthy key base

/-! ## What a call does to the base store -/

section Calls

variable {truthy : V → Bool} {base : InMemoryStore V} {space other : Namespace} {key : Bytes}

theorem InMemoryStore.get_set (htruthy : ∀ value, truthy value) (changed : Bytes) (value : V) :
    (base.set changed value).get truthy key =
      if key = changed then some value else base.get truthy key := by
  simp only [InMemoryStore.get, InMemoryStore.set, EntryMap.get_set, toHex_inj]
  by_cases h : key = changed
  · simp [h, htruthy]
  · simp [h]

theorem InMemoryStore.get_delete (deleted : Bytes) :
    (base.delete deleted).get truthy key =
      if key = deleted then none else base.get truthy key := by
  simp only [InMemoryStore.get, InMemoryStore.delete, EntryMap.get_delete, toHex_inj]
  by_cases h : key = deleted
  · simp [h]
  · simp [h]

/-- The loop of `clear`. -/
theorem get_foldl_delete (p : List Char → Bool) (keys : List (List Char))
    (store : EntryMap (List Char) V) (text : List Char) :
    (keys.foldl (fun store key => if p key then store.delete key else store) store).get text =
      if text ∈ keys ∧ p text then none else store.get text := by
  induction keys generalizing store with
  | nil => simp
  | cons first keys ih =>
      rw [List.foldl_cons, ih]
      by_cases hfirst : p first
      · rw [if_pos hfirst, EntryMap.get_delete]
        by_cases htext : text = first
        · simp [htext, hfirst]
        · simp [htext]
      · rw [if_neg hfirst]
        by_cases htext : text = first
        · simp [htext, hfirst]
        · simp [htext]

theorem InMemoryStore.get_clear (start : Bytes) :
    (base.clear (some start)).get truthy key =
      if start <+: key then none else base.get truthy key := by
  simp only [InMemoryStore.get, InMemoryStore.clear, get_foldl_delete]
  have hmatches : matchesStart (toHex start) (toHex key) ↔ start <+: key := by
    rw [matchesStart, List.isPrefixOf_iff_prefix, toHex_prefix_iff]
  by_cases hstart : start <+: key
  · rw [if_pos hstart]
    by_cases hkey : toHex key ∈ base.store.keys
    · rw [if_pos ⟨hkey, hmatches.mpr hstart⟩]
    · -- there is nothing under the key
      have hnone : base.store.get (toHex key) = none := by
        rwa [← EntryMap.isSome_get, Option.not_isSome_iff_eq_none] at hkey
      simp [hnone]
  · rw [if_neg hstart, if_neg fun h => hstart (hmatches.mp h.2)]

theorem fullKey_inj (other : Bytes) : space.fullKey key = space.fullKey other ↔ key = other :=
  List.append_right_inj _

theorem fullKey_prefix_iff (start : Bytes) :
    space.fullKey start <+: space.fullKey key ↔ start <+: key :=
  List.prefix_append_right_inj _

/-- A call on a view does to what it has what it would do to a map. -/
theorem content_serve_own (htruthy : ∀ value, truthy value) (call : StoreCall V) :
    (space.serve truthy base call).1 = ((space.content truthy base).serve call).1 ∧
      space.content truthy (space.serve truthy base call).2 =
        ((space.content truthy base).serve call).2 := by
  cases call with
  | get key => exact ⟨rfl, rfl⟩
  | set changed value =>
      refine ⟨rfl, funext fun key => ?_⟩
      simp only [Namespace.content, Namespace.serve, Namespace.get, Namespace.set,
        InMemoryStore.get_set htruthy, fullKey_inj, ClearableMap.serve, Function.update_apply]
  | delete deleted =>
      refine ⟨rfl, funext fun key => ?_⟩
      simp only [Namespace.content, Namespace.serve, Namespace.get, Namespace.delete,
        InMemoryStore.get_delete, fullKey_inj, ClearableMap.serve, Function.update_apply]
  | clear start =>
      cases start with
      | some start =>
          refine ⟨rfl, funext fun key => ?_⟩
          simp only [Namespace.content, Namespace.serve, Namespace.get, Namespace.clear,
            InMemoryStore.get_clear, fullKey_prefix_iff, ClearableMap.serve]
      | none =>
          refine ⟨rfl, funext fun key => ?_⟩
          have hall : space.spacePrefix <+: space.fullKey key := List.prefix_append _ _
          simp only [Namespace.content, Namespace.serve, Namespace.get, Namespace.clear,
            InMemoryStore.get_clear, if_pos hall, ClearableMap.serve]

/-- No key of one view starts with the prefix of the other. -/
theorem not_fullKey (h : ¬ space.spacePrefix <+: other.spacePrefix)
    (hother : ¬ other.spacePrefix <+: space.spacePrefix) (start key : Bytes) :
    ¬ space.fullKey start <+: other.fullKey key := by
  intro hmeet
  have hspace : space.spacePrefix <+: other.fullKey key :=
    (List.prefix_append _ _).trans hmeet
  have hown : other.spacePrefix <+: other.fullKey key := List.prefix_append _ _
  rcases List.prefix_or_prefix_of_prefix hspace hown with hle | hle
  · exact h hle
  · exact hother hle

/-- A call on one view changes nothing of what the other has. -/
theorem content_serve_other (htruthy : ∀ value, truthy value)
    (h : ¬ space.spacePrefix <+: other.spacePrefix)
    (hother : ¬ other.spacePrefix <+: space.spacePrefix) (call : StoreCall V) :
    other.content truthy (space.serve truthy base call).2 = other.content truthy base := by
  funext key
  -- no key of this view lies under a key of the other one
  have hmeet := not_fullKey h hother
  have hne : ∀ changed, other.fullKey key ≠ space.fullKey changed := by
    intro changed heq
    exact hmeet changed key (heq ▸ List.prefix_refl _)
  cases call with
  | get key => rfl
  | set changed value =>
      simp only [Namespace.content, Namespace.serve, Namespace.get, Namespace.set,
        InMemoryStore.get_set htruthy, if_neg (hne changed)]
  | delete deleted =>
      simp only [Namespace.content, Namespace.serve, Namespace.get, Namespace.delete,
        InMemoryStore.get_delete, if_neg (hne deleted)]
  | clear start =>
      cases start with
      | some start =>
          simp only [Namespace.content, Namespace.serve, Namespace.get, Namespace.clear,
            InMemoryStore.get_clear, if_neg (hmeet start key)]
      | none =>
          have hnone := hmeet [] key
          rw [Namespace.fullKey, List.append_nil] at hnone
          simp only [Namespace.content, Namespace.serve, Namespace.get, Namespace.clear,
            InMemoryStore.get_clear, if_neg hnone]

end Calls

/-! ## Two views -/

/-- Neither prefix is a prefix of the other. -/
def Apart (space : View → Namespace) : Prop :=
  ¬ (space .first).spacePrefix <+: (space .second).spacePrefix ∧
    ¬ (space .second).spacePrefix <+: (space .first).spacePrefix

theorem Apart.not_le {space : View → Namespace} (h : Apart space) {view other : View}
    (hne : view ≠ other) : ¬ (space view).spacePrefix <+: (space other).spacePrefix := by
  cases view with
  | first =>
      cases other with
      | first => exact absurd rfl hne
      | second => exact h.1
  | second =>
      cases other with
      | first => exact h.2
      | second => exact absurd rfl hne

/-- Each view answers as a map that its calls alone are made to. -/
theorem serveViews_eq {truthy : V → Bool} (htruthy : ∀ value, truthy value)
    {space : View → Namespace} (h : Apart space) (base : InMemoryStore V)
    (calls : List (View × StoreCall V)) (view : View) :
    ofView view (serveViews truthy space base calls) =
      ((space view).content truthy base).serveAll (ofView view calls) := by
  induction calls generalizing base with
  | nil => rfl
  | cons entry calls ih =>
      rcases entry with ⟨caller, call⟩
      have hcons : serveViews truthy space base ((caller, call) :: calls) =
          (caller, ((space caller).serve truthy base call).1) ::
            serveViews truthy space ((space caller).serve truthy base call).2 calls := rfl
      rw [hcons]
      by_cases hcaller : caller = view
      · -- its own call, answered as by the map of the view
        subst hcaller
        rcases @content_serve_own _ _ base (space caller) htruthy call with ⟨hanswer, hcontent⟩
        have hofView : ∀ {α : Type} (x : α) (list : List (View × α)),
            ofView caller ((caller, x) :: list) = x :: ofView caller list := fun _ _ => by
          simp [ofView]
        rw [hofView, hofView, ih, ClearableMap.serveAll, hanswer, hcontent]
      · -- a call of the other view, which leaves the map as it is
        have hcontent := @content_serve_other _ _ base _ _ htruthy (h.not_le hcaller)
          (h.not_le (Ne.symm hcaller)) call
        have hofView : ∀ {α : Type} (x : α) (list : List (View × α)),
            ofView view ((caller, x) :: list) = ofView view list := fun _ _ => by
          simp [ofView, hcaller]
        rw [hofView, hofView, ih, hcontent]

end Stores

/-- Buffers are objects, and taken for true. -/
def bufferTruthy (_ : Bytes) : Bool := true

def spaces (first second : Bytes ⊕ String) : View → Namespace
  | .first => .new first
  | .second => .new second

/-- Two namespaces over a store of buffers, whatever is in it at first: each answers as a map of its own,
which has at first what is in the store under the prefix. -/
theorem namespaces_isolated (base : InMemoryStore Bytes) (first second : Bytes ⊕ String)
    (hapart : Apart (spaces first second)) (calls : List (View × StoreCall Bytes)) (view : View) :
    ofView view (serveViews bufferTruthy (spaces first second) base calls) =
      ((spaces first second view).content bufferTruthy base).serveAll (ofView view calls) :=
  serveViews_eq (fun _ => rfl) hapart base calls view

/-- The prefixes "cata" and "foo". -/
theorem namespaces_isolated_words :
    ofView .first (serveViews bufferTruthy (spaces (.inl [99, 97, 116, 97]) (.inl [102, 111, 111]))
        ⟨.empty⟩ [(.first, .set [] [1]), (.second, .clear none), (.first, .get [])]) =
      (((spaces (.inl [99, 97, 116, 97]) (.inl [102, 111, 111])) .first).content bufferTruthy
        ⟨.empty⟩).serveAll [.set [] [1], .get []] :=
  namespaces_isolated ⟨.empty⟩ (.inl [99, 97, 116, 97]) (.inl [102, 111, 111])
    (by constructor <;> decide)
    [(.first, .set [] [1]), (.second, .clear none), (.first, .get [])] .first

end UniqysKit
