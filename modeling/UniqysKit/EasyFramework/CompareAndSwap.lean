import UniqysKit.EasyFramework.KeySpaces
import UniqysKit.EasyFramework.Items

/-!
# Compare and swap

`cas` of `memcached-implementation.ts` writes an item if its token is the one that the client has got.
Each command that changes an item gives it the next token.  But the token is kept in the item, so a new
item after `delete` or `flush` starts again with one, and a token that the client got before may be that of
another item.  `unchanged_of_stored` is about the runs without the two.
-/

namespace UniqysKit
namespace EasyFramework

open Library

/-- The requests to the server, but for the accounts. -/
def Call.IsCommand : Call → Prop
  | getAccount _ _ | putBalance _ _ | transfer _ _ _ => False
  | _ => True

/-- Tokens are used, and all commands are allowed. -/
def casMemcached : EasyMemcached := ⟨true, .readWrite⟩

/-! ## Tokens in the contents -/

section Contents

variable {c : Crypto} {key : Bytes} {contents : Contents} {item : Item} {call : Call}

/-- This item is under the key. -/
def Has (key : Bytes) (item : Item) (contents : Contents) : Prop :=
  casMemcached.itemOf (contents (State.appKey key)) = .ok (some item)

/-- It still is, or one with the next token. -/
def Advanced (key : Bytes) (item : Item) (contents : Contents) : Prop :=
  Has key item contents ∨ ∃ changed, Has key changed contents ∧ changed.casUniq = item.casUniq + 1

theorem appKey_injective : Function.Injective State.appKey := fun _ _ h => List.append_cancel_left h

/-- Writing an item with the next token. -/
theorem advanced_written {content : Content} {changed : Item}
    (hnext : changed.casUniq = item.casUniq + 1) (h : casMemcached.written key changed = .ok content) :
    Advanced key item ((Operation.set content).update contents) :=
  .inr ⟨changed, EasyMemcached.itemOf_written h, hnext⟩

/-- An action that only writes the next token. -/
theorem Has.getAndAct (h : Has key item contents) {action : Option Item → Option Item × Reply}
    (hnext : ∀ changed, (action (some item)).1 = some changed → changed.casUniq = item.casUniq + 1) :
    Advanced key item (Fallible.final ((casMemcached.getAndActCode key action).onContents contents)) := by
  rw [EasyMemcached.getAndAct_onContents rfl, h]
  simp only
  rcases haction : action (some item) with ⟨_ | changed, reply⟩
  · exact .inl h
  · rw [haction] at hnext
    simp only
    cases hwritten : casMemcached.written key changed with
    | error e => exact .inl h
    | ok content => exact advanced_written (hnext changed rfl) hwritten

/-- `set`, with the token of the item that was there. -/
theorem set_eq (key : Bytes) (flags : Int) (data : Bytes) :
    (casMemcached.setCode key flags data).onContents =
      ((casMemcached.getItemCode key).onContents >>= fun found =>
        (casMemcached.setItemCode key ⟨flags, (found.map Item.casUniq).getD 0 + 1, data⟩).onContents >>=
          fun _ => pure (.response .stored)) := by
  have huse : casMemcached.useCas = true := rfl
  have hwritable : casMemcached.checkWritableCode = pure () := rfl
  simp only [EasyMemcached.setCode, Code.onContents, Program.run_bind, hwritable, huse, if_true,
    Program.run_pure, pure_bind]

theorem Has.set (h : Has key item contents) (flags : Int) (data : Bytes) :
    Advanced key item (Fallible.final ((casMemcached.setCode key flags data).onContents contents)) := by
  have hget := @EasyMemcached.getItem_onContents casMemcached key contents
  rw [h] at hget
  have hset := @EasyMemcached.setItem_onContents casMemcached key ⟨flags, item.casUniq + 1, data⟩ contents
  rw [set_eq, Fallible.bind_ok hget]
  simp only [Option.map_some, Option.getD_some]
  rw [Fallible.final_bind_pure, hset]
  cases hwritten : casMemcached.written key ⟨flags, item.casUniq + 1, data⟩ with
  | error e => exact .inl h
  | ok content => exact advanced_written rfl hwritten

/-- The item of a key that the call does not reach. -/
theorem Has.onContents_of_notMem (h : Has key item contents) (hkey : State.appKey key ∉ call.footprint) :
    Advanced key item (Fallible.final ((call.code casMemcached).onContents contents)) := by
  refine .inl ?_
  unfold Has
  rw [Call.onContents_of_notMem casMemcached call contents hkey]
  exact h

theorem Has.onContents_of_ne (h : Has key item contents) {other : Bytes}
    (hfootprint : call.footprint = {State.appKey other}) (hne : key ≠ other) :
    Advanced key item (Fallible.final ((call.code casMemcached).onContents contents)) := by
  refine h.onContents_of_notMem ?_
  rw [hfootprint]
  exact fun hmem => hne (appKey_injective hmem)

/-- One command. -/
theorem Has.onContents (h : Has key item contents) (hcommand : call.IsCommand)
    (hdelete : call ≠ .delete key) (hflush : call ≠ .flush) :
    Advanced key item (Fallible.final ((call.code casMemcached).onContents contents)) := by
  -- what a command on this key writes, if it writes, has the next token
  cases call with
  | other => exact .inl h
  | retrieve keys withCas =>
      refine .inl ?_
      show Has key item (Fallible.final ((casMemcached.retrieveCode keys withCas).onContents contents))
      rwa [casMemcached.final_retrieve]
  | getAccount address part => exact hcommand.elim
  | set other flags data =>
      by_cases hkey : key = other
      · subst hkey
        exact h.set flags data
      · exact h.onContents_of_ne rfl hkey
  | add other flags data =>
      by_cases hkey : key = other
      · subst hkey
        exact h.getAndAct nofun
      · exact h.onContents_of_ne rfl hkey
  | replace other flags data =>
      by_cases hkey : key = other
      · subst hkey
        exact h.getAndAct (by rintro _ ⟨⟩; rfl)
      · exact h.onContents_of_ne rfl hkey
  | append other data =>
      by_cases hkey : key = other
      · subst hkey
        exact h.getAndAct (by rintro _ ⟨⟩; rfl)
      · exact h.onContents_of_ne rfl hkey
  | prepend other data =>
      by_cases hkey : key = other
      · subst hkey
        exact h.getAndAct (by rintro _ ⟨⟩; rfl)
      · exact h.onContents_of_ne rfl hkey
  | cas other flags casUniq data =>
      by_cases hkey : key = other
      · subst hkey
        refine h.getAndAct ?_
        intro changed hchanged
        simp only at hchanged
        split at hchanged
        · cases hchanged
          rfl
        · cases hchanged
      · exact h.onContents_of_ne rfl hkey
  | delete other =>
      refine h.onContents_of_ne rfl ?_
      rintro rfl
      exact hdelete rfl
  | incr other value =>
      by_cases hkey : key = other
      · subst hkey
        exact h.getAndAct (by rintro _ ⟨⟩; rfl)
      · exact h.onContents_of_ne rfl hkey
  | decr other value =>
      by_cases hkey : key = other
      · subst hkey
        exact h.getAndAct (by rintro _ ⟨⟩; rfl)
      · exact h.onContents_of_ne rfl hkey
  | flush => exact absurd rfl hflush
  | putBalance address balance => exact hcommand.elim
  | transfer fromAddress toAddress value => exact hcommand.elim
  | putValidators body => exact h.onContents_of_notMem id

/-- `cas` stores for the token of the item only. -/
theorem Has.casUniq_of_stored (h : Has key item contents) {flags casUniq : Int} {data : Bytes}
    (hstored : Fallible.outcome (((Call.cas key flags casUniq data).code casMemcached).onContents contents) =
      .ok (.response .stored)) : (item.casUniq : Int) = casUniq := by
  rw [Call.code, EasyMemcached.getAndAct_onContents rfl, h] at hstored
  by_contra hne
  simp only [if_neg hne] at hstored
  cases hstored

end Contents

/-! ## Runs -/

section Runs

variable {c : Crypto} {key : Bytes} {item : Item} {state : State} {call : Call} {calls : List Call}

/-- This item is under the key of a sound state. -/
def StateHas (c : Crypto) (key : Bytes) (item : Item) (state : State) : Prop :=
  ∃ contents, Represents c state.top contents ∧ Has key item contents

theorem StateHas.getItem (h : StateHas c key item state) :
    Fallible.outcome (casMemcached.getItem key state) = .ok (some item) := by
  rcases h with ⟨contents, hrep, hhas⟩
  exact (hrep.getItem_eq key).trans hhas

theorem stateHas_of_getItem (hsound : state.Sound c)
    (h : Fallible.outcome (casMemcached.getItem key state) = .ok (some item)) :
    StateHas c key item state := by
  rcases hsound.represents with ⟨contents, hrep⟩
  exact ⟨contents, hrep, (hrep.getItem_eq key).symm.trans h⟩

/-- The saved nodes before some calls do not collide either. -/
theorem noCollision_of_serveAll (hc : NoCollision c (Call.serveAll c casMemcached calls state).saved) :
    NoCollision c state.saved :=
  hc.mono ((Call.stable_serveAll (c := c) casMemcached calls).forward state).1.subset

/-- What is true of a command that does not remove the item. -/
def Keeps (key : Bytes) (call : Call) : Prop := call.IsCommand ∧ call ≠ .delete key ∧ call ≠ .flush

theorem StateHas.serve (h : StateHas c key item state) (hkeeps : Keeps key call)
    (hc : NoCollision c (call.serve c casMemcached state).saved) :
    StateHas c key item (call.serve c casMemcached state) ∨
      ∃ changed, StateHas c key changed (call.serve c casMemcached state) ∧
        changed.casUniq = item.casUniq + 1 := by
  rcases h with ⟨contents, hrep, hhas⟩
  have hafter := represents_serve hrep casMemcached call hc
  rcases hhas.onContents hkeeps.1 hkeeps.2.1 hkeeps.2.2 with hsame | ⟨changed, hchanged, hnext⟩
  · exact .inl ⟨_, hafter, hsame⟩
  · exact .inr ⟨changed, ⟨_, hafter, hchanged⟩, hnext⟩

/-- Over a run the token only grows, and where it is the same at the end, nothing has changed. -/
theorem StateHas.serveAll (h : StateHas c key item state) (hkeeps : ∀ call ∈ calls, Keeps key call)
    (hc : NoCollision c (Call.serveAll c casMemcached calls state).saved) :
    ∃ last, StateHas c key last (Call.serveAll c casMemcached calls state) ∧
      item.casUniq ≤ last.casUniq ∧
        (last.casUniq = item.casUniq →
          ∀ before, before <+: calls → StateHas c key item (Call.serveAll c casMemcached before state)) := by
  induction calls generalizing state item with
  | nil =>
      refine ⟨item, h, le_refl _, ?_⟩
      rintro - before hbefore
      rw [List.prefix_nil.mp hbefore]
      exact h
  | cons call calls ih =>
      -- what the first call saves is part of what all of them save
      have hfirst : NoCollision c (call.serve c casMemcached state).saved :=
        @noCollision_of_serveAll _ _ calls hc
      have hrest : ∀ call ∈ calls, Keeps key call := fun call hmem =>
        hkeeps call (List.mem_cons_of_mem _ hmem)
      rcases h.serve (hkeeps call List.mem_cons_self) hfirst with hsame | ⟨changed, hchanged, hnext⟩
      · -- the item is the same after the first call
        rcases ih hsame hrest hc with ⟨last, hlast, hle, hunchanged⟩
        refine ⟨last, hlast, hle, ?_⟩
        intro heq before hbefore
        cases before with
        | nil => exact h
        | cons first before =>
            rcases List.cons_prefix_cons.mp hbefore with ⟨rfl, hbefore'⟩
            exact hunchanged heq before hbefore'
      · -- the token has grown, so it is greater at the end
        rcases ih hchanged hrest hc with ⟨last, hlast, hle, -⟩
        exact ⟨last, hlast, by omega, fun heq => by omega⟩

end Runs

/-- In a run in which the key is not deleted and the store is not flushed: if `cas` answers that it has
stored, for the token that was got at the start, the item has been the same all the time. -/
theorem unchanged_of_stored (c : Crypto) (state : State) (hsound : state.Sound c) (key : Bytes) (item : Item)
    (hgets : Fallible.outcome (casMemcached.getItem key state) = .ok (some item)) (calls : List Call)
    (hcommands : ∀ call ∈ calls, call.IsCommand)
    (hkept : ∀ call ∈ calls, call ≠ .delete key ∧ call ≠ .flush) (flags : Int) (data : Bytes)
    (hc : NoCollision c ((Call.cas key flags item.casUniq data).serve c casMemcached
      (Call.serveAll c casMemcached calls state)).saved)
    (hstored : (Call.cas key flags item.casUniq data).answer c casMemcached
      (Call.serveAll c casMemcached calls state) = .ok (.response .stored)) :
    ∀ before, before <+: calls →
      Fallible.outcome (casMemcached.getItem key (Call.serveAll c casMemcached before state)) =
        .ok (some item) := by
  have hkeeps : ∀ call ∈ calls, Keeps key call := fun call hmem =>
    ⟨hcommands call hmem, (hkept call hmem).1, (hkept call hmem).2⟩
  have hlater : NoCollision c (Call.serveAll c casMemcached calls state).saved :=
    @noCollision_of_serveAll _ _ [.cas key flags item.casUniq data] hc
  obtain ⟨last, ⟨contents, hrep, hlast⟩, -, hunchanged⟩ :=
    (stateHas_of_getItem hsound hgets).serveAll hkeeps hlater
  rw [hrep.answer_eq _ hc] at hstored
  have htoken : last.casUniq = item.casUniq := Int.ofNat.inj (hlast.casUniq_of_stored hstored)
  intro before hbefore
  exact (hunchanged htoken before hbefore).getItem

/-! ### An item that is deleted and comes again -/

def withItem (data : Bytes) : State :=
  (Call.set [107] 0 data).serve .transparent casMemcached Controller.freshState

theorem withItem_sound {data : Bytes} (hc : NoCollision .transparent (withItem data).saved) :
    (withItem data).Sound .transparent :=
  (Call.stable_run casMemcached (.set [107] 0 data)).sound Controller.freshState (ready_sound _ _) hc

/-- Every write gives the item the next token. -/
example : Fallible.outcome (casMemcached.getItem [107]
    ((Call.cas [107] 0 1 [2]).serve .transparent casMemcached (withItem [1]))) =
      .ok (some ⟨0, 2, [2]⟩) := by
  decide +kernel

/-- Another key is deleted before. -/
theorem unchanged_of_stored_sample :
    Fallible.outcome (casMemcached.getItem [107]
      (Call.serveAll .transparent casMemcached [.delete [108]] (withItem [1]))) = .ok (some ⟨0, 1, [1]⟩) :=
  unchanged_of_stored .transparent (withItem [1]) (withItem_sound (by decide +kernel)) [107] ⟨0, 1, [1]⟩
    (by decide +kernel) [.delete [108]] (by simp [Call.IsCommand]) (by decide) 0 [2] (by decide +kernel)
    (by decide +kernel) [.delete [108]] (List.prefix_refl _)

/-- The key is deleted and added, and the token is the same. -/
theorem not_unchanged :
    ¬ ∀ (c : Crypto) (state : State) (_ : state.Sound c) (key : Bytes) (item : Item)
      (_ : Fallible.outcome (casMemcached.getItem key state) = .ok (some item)) (calls : List Call)
      (_ : ∀ call ∈ calls, call.IsCommand) (flags : Int) (data : Bytes)
      (_ : NoCollision c ((Call.cas key flags item.casUniq data).serve c casMemcached
        (Call.serveAll c casMemcached calls state)).saved)
      (_ : (Call.cas key flags item.casUniq data).answer c casMemcached
        (Call.serveAll c casMemcached calls state) = .ok (.response .stored)),
      ∀ before, before <+: calls →
        Fallible.outcome (casMemcached.getItem key (Call.serveAll c casMemcached before state)) =
          .ok (some item) := by
  intro h
  have hsame := h .transparent (withItem [1]) (withItem_sound (by decide +kernel)) [107] ⟨0, 1, [1]⟩
    (by decide +kernel) [.delete [107], .add [107] 0 [2]] (by simp [Call.IsCommand]) 0 [3]
    (by decide +kernel) (by decide +kernel) _ List.prefix_rfl
  exact absurd hsame (by decide +kernel)

end EasyFramework
end UniqysKit
