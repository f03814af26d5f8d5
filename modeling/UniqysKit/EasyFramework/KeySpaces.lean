import UniqysKit.EasyFramework.Contents

/-!
# Accounts and the application's keys

Both are in one trie: an account under its address, a key of the application behind the zero address.
So they are apart, but for the account of the zero address.  It is under the same key as the empty
key of the application, which the text protocol does not refuse, and `flush_all` takes it for one of
the application's keys.
-/

namespace UniqysKit
namespace EasyFramework

open Library

/-! ## Commands of the text protocol -/

namespace Memcached

/-- `Buffer.from(text, 'utf8')`. -/
def Text.buffer (text : Text) : Bytes := text.flatMap String.utf8EncodeChar

/-- A call of the implementation, for `EasyMemcached`. -/
def Call.toCall : Call → EasyFramework.Call
  | set key flags data => .set key.buffer flags data
  | add key flags data => .add key.buffer flags data
  | replace key flags data => .replace key.buffer flags data
  | append key data => .append key.buffer data
  | prepend key data => .prepend key.buffer data
  | cas key flags casUniq data => .cas key.buffer flags casUniq data
  | delete key => .delete key.buffer
  | incr key value => .incr key.buffer value
  | decr key value => .decr key.buffer value
  | flush => .flush
  | get keys => .retrieve (keys.map Text.buffer) false
  | gets keys => .retrieve (keys.map Text.buffer) true
  | stats _ | version | verbosity _ | quit => .other

/-- The calls that a line of text leads to, where it is followed by these data. -/
def accepted (implementation : MemcachedSubset) (line data : Bytes) : List Call :=
  match Connection.processLine implementation line Connection.new with
  | .ok (some (_, handler)) connection => connection.calls ++ [handler.call data]
  | .ok none connection => connection.calls
  | .error _ connection => connection.calls

/-- The line `flush_all`. -/
def flushLine : Bytes := [102, 108, 117, 115, 104, 95, 97, 108, 108]

theorem accepted_flushLine (implementation : MemcachedSubset) :
    Call.flush ∈ accepted implementation flushLine [] := by
  have hline : (toText flushLine).splitOn ' ' = ["flush_all".toList] := by decide +kernel
  have hcommand : Connection.processCommand implementation "flush_all".toList [] = Connection.done (do
      let response ← Connection.invoke implementation.response .flush
      Connection.writeResponse false response) := rfl
  unfold accepted Connection.processLine
  simp only [hline, hcommand, Connection.done]
  -- the call is noted, whatever the implementation answers
  cases hres : implementation.response [] .flush with
  | ok response =>
      have hinvoke : Connection.invoke implementation.response .flush Connection.new =
          .ok response ⟨[.flush], []⟩ := by
        show Connection.fetch (implementation.response [] .flush) _ = _
        rw [hres]
        rfl
      have hcode := (Fallible.bind_ok
        (f := fun response => Connection.writeResponse false response) hinvoke).trans rfl
      rw [Fallible.bind_ok hcode]
      exact List.mem_singleton.mpr rfl
  | error e =>
      have hinvoke : Connection.invoke implementation.response .flush Connection.new =
          .error e ⟨[.flush], []⟩ := by
        show Connection.fetch (implementation.response [] .flush) _ = _
        rw [hres]
        rfl
      rw [Fallible.bind_error (Fallible.bind_error hinvoke)]
      exact List.mem_singleton.mpr rfl

end Memcached

/-! ## Keys -/

section Keys

variable {address : Address} {key : Bytes}

theorem prefix_buffer_iff : Address.zero.buffer <+: address.buffer ↔ address = Address.zero := by
  constructor
  · intro h
    have hlength : Address.zero.buffer.length = address.buffer.length :=
      Address.zero.size.trans address.size.symm
    exact Address.ext (h.eq_of_length hlength).symm
  · rintro rfl
    exact List.prefix_rfl

/-- The only key that an account and the application share. -/
theorem appKey_eq_buffer_iff :
    State.appKey key = address.buffer ↔ address = Address.zero ∧ key = [] := by
  constructor
  · intro h
    have hzero : address = Address.zero := prefix_buffer_iff.mp ⟨key, h⟩
    subst hzero
    exact ⟨rfl, List.append_right_eq_self.mp h⟩
  · rintro ⟨rfl, rfl⟩
    exact List.append_nil _

end Keys

/-- What is not a request to the inner API reaches the entry of the zero address at most. -/
theorem Call.buffer_notMem_footprint {call : Call}
    (hread : ∀ address part, call ≠ .getAccount address part)
    (hbalance : ∀ address balance, call ≠ .putBalance address balance)
    (htransfer : ∀ fromAddress toAddress value, call ≠ .transfer fromAddress toAddress value)
    {address : Address} (h : address ≠ Address.zero) : address.buffer ∉ call.footprint := by
  have hkey : ∀ key, address.buffer ∉ ({State.appKey key} : Set Bytes) := by
    intro key hmem
    exact h (appKey_eq_buffer_iff.mp hmem.symm).1
  cases call with
  | other => exact id
  | retrieve keys withCas => exact fun ⟨key, _, heq⟩ => hkey key heq
  | getAccount target part => exact absurd rfl (hread target part)
  | set key _ _ => exact hkey key
  | add key _ _ => exact hkey key
  | replace key _ _ => exact hkey key
  | append key _ => exact hkey key
  | prepend key _ => exact hkey key
  | cas key _ _ _ => exact hkey key
  | delete key => exact hkey key
  | incr key _ => exact hkey key
  | decr key _ => exact hkey key
  | flush => exact fun hprefix => h (prefix_buffer_iff.mp hprefix)
  | putBalance target balance => exact absurd rfl (hbalance target balance)
  | transfer source target value => exact absurd rfl (htransfer source target value)
  | putValidators body => exact id

theorem Memcached.Call.buffer_notMem_footprint (call : Memcached.Call) {address : Address}
    (h : address ≠ Address.zero) : address.buffer ∉ call.toCall.footprint := by
  refine EasyFramework.Call.buffer_notMem_footprint ?_ ?_ ?_ h
  · intro target part heq
    cases call <;> cases heq
  · intro target balance heq
    cases call <;> cases heq
  · intro source target value heq
    cases call <;> cases heq

/-! ## What calls leave alone -/

section Frames

variable {c : Crypto}

/-- The contents after an account was set. -/
theorem represents_setAccount {state : State} {contents : Contents}
    (hrep : Represents c state.top contents) (address : Address) (account : Account)
    (hc : NoCollision c (Fallible.final (State.setAccount c address account state)).saved) :
    Represents c (Fallible.final (State.setAccount c address account state)).top
      (Fallible.final ((InnerApi.setAccountCode address account).onContents contents)) :=
  ((matches_setAccount address account).onContents hrep hc).2

/-- A call leaves an account alone whose entry it does not reach. -/
theorem getAccount_serve {state : State} (hsound : state.Sound c) (memcached : EasyMemcached)
    {call : Call} (hc : NoCollision c (call.serve c memcached state).saved) {address : Address}
    (hkey : address.buffer ∉ call.footprint) :
    Fallible.outcome (State.getAccount address (call.serve c memcached state)) =
      Fallible.outcome (State.getAccount address state) := by
  rcases hsound.represents with ⟨contents, hrep⟩
  rw [outcome_getAccount_of_represents (represents_serve hrep memcached call hc),
    outcome_getAccount_of_represents hrep, call.onContents_of_notMem memcached contents hkey]

/-- Setting an account leaves the other keys alone. -/
theorem get_setAccount {state : State} (hsound : state.Sound c) {address : Address} {account : Account}
    (hc : NoCollision c (Fallible.final (State.setAccount c address account state)).saved)
    {key : Bytes} (hkey : key ≠ address.buffer) :
    Fallible.outcome (State.onTop (MerklePatriciaTrie.get key)
        (Fallible.final (State.setAccount c address account state))) =
      Fallible.outcome (State.onTop (MerklePatriciaTrie.get key) state) := by
  rcases hsound.represents with ⟨contents, hrep⟩
  have huses : (InnerApi.setAccountCode address account).Uses (Access.Within {address.buffer}) :=
    InnerApi.uses_setAccount (Set.mem_singleton _) account
  rw [outcome_get_top (represents_setAccount hrep address account hc), outcome_get_top hrep]
  exact congrArg Except.ok (huses.respects (fun _ h => h.respects hkey) contents)

end Frames

/-! ## Separate key spaces -/

section Separate

variable (c : Crypto) (implementation : Memcached.MemcachedSubset)

/-- Whatever command comes over a connection, the account stays as it is. -/
def CommandsLeaveAccount (address : Address) : Prop :=
  ∀ line data, ∀ call ∈ Memcached.accepted implementation line data, ∀ memcached state,
    state.Sound c → NoCollision c (call.toCall.serve c memcached state).saved →
      Fallible.outcome (State.getAccount address (call.toCall.serve c memcached state)) =
        Fallible.outcome (State.getAccount address state)

/-- However the account is set, the values of all keys that the protocol lets through stay. -/
def AccountLeavesContents (address : Address) : Prop :=
  ∀ account state, state.Sound c →
    NoCollision c (Fallible.final (State.setAccount c address account state)).saved →
      ∀ raw key, Memcached.Checker.key raw = .ok key →
        Fallible.outcome (State.appGet key.buffer
            (Fallible.final (State.setAccount c address account state))) =
          Fallible.outcome (State.appGet key.buffer state)

/-- A fresh state, after the account of the zero address was set. -/
def withZeroAccount : State :=
  Fallible.final (State.setAccount c Address.zero ⟨1, 0⟩
    (Fallible.final (State.ready c 0 ⟨[]⟩ (State.new c))))

/-- The same after `flush_all`. -/
def withoutZeroAccount : State := Call.flush.serve c ⟨false, .readWrite⟩ (withZeroAccount c)

end Separate

section ZeroAddress

variable {c : Crypto}

/-- The entry of the account of the zero address. -/
def zeroEntry : Bytes := [0, 0, 0, 0, 0, 0, 0, 1, 0, 0, 0, 0, 0, 0, 0, 0]

theorem exists_contents_withZeroAccount (hc : NoCollision c (withZeroAccount c).saved) :
    ∃ contents, Represents c (withZeroAccount c).top contents ∧
      contents Address.zero.buffer = some zeroEntry :=
  ⟨_, represents_setAccount (represents_ready 0 ⟨[]⟩) Address.zero ⟨1, 0⟩ hc, by decide +kernel⟩

theorem withZeroAccount_sound (hc : NoCollision c (withZeroAccount c).saved) :
    (withZeroAccount c).Sound c :=
  (quiet_setAccount Address.zero ⟨1, 0⟩).sound _ (ready_sound 0 ⟨[]⟩) hc

theorem noCollision_withZeroAccount (hc : NoCollision c (withoutZeroAccount c).saved) :
    NoCollision c (withZeroAccount c).saved :=
  hc.mono ((Call.stable_run ⟨false, .readWrite⟩ .flush).forward _).1.subset

/-- `flush_all` takes the account of the zero address away. -/
theorem not_commandsLeaveAccount_zero (implementation : Memcached.MemcachedSubset)
    (hc : NoCollision c (withoutZeroAccount c).saved) :
    ¬ CommandsLeaveAccount c implementation Address.zero := by
  intro h
  obtain ⟨contents, hrep, hentry⟩ := exists_contents_withZeroAccount (noCollision_withZeroAccount hc)
  have hsame := h Memcached.flushLine [] .flush (Memcached.accepted_flushLine implementation)
    ⟨false, .readWrite⟩ (withZeroAccount c) (withZeroAccount_sound (noCollision_withZeroAccount hc)) hc
  have hafter := represents_serve hrep ⟨false, .readWrite⟩ .flush hc
  have hnone : Fallible.final ((Call.flush.code ⟨false, .readWrite⟩).onContents contents)
      Address.zero.buffer = none := by
    show (Operation.clear (some Address.zero.buffer)).update contents Address.zero.buffer = none
    simp [Operation.update]
  rw [Memcached.Call.toCall, outcome_getAccount_of_represents hafter,
    outcome_getAccount_of_represents hrep, hnone, hentry] at hsame
  exact absurd hsame (by decide +kernel)

/-- The account of the zero address is the value of the empty key. -/
theorem not_accountLeavesContents_zero (hc : NoCollision c (withZeroAccount c).saved) :
    ¬ AccountLeavesContents c Address.zero := by
  intro h
  rcases exists_contents_withZeroAccount hc with ⟨contents, hrep, hentry⟩
  have hsame := h ⟨1, 0⟩ _ (ready_sound 0 ⟨[]⟩) hc (some []) [] rfl
  have hempty : State.appKey (Memcached.Text.buffer []) = Address.zero.buffer := List.append_nil _
  simp only [State.appGet, hempty] at hsame
  rw [outcome_get_top (represents_ready 0 ⟨[]⟩)] at hsame
  have hset := outcome_get_top hrep Address.zero.buffer
  rw [hentry] at hset
  exact absurd (hset.symm.trans hsame) (by simp)

end ZeroAddress

/-- Commands and accounts keep out of each other's way, for each address but the zero address. -/
theorem separate_iff (c : Crypto) (implementation : Memcached.MemcachedSubset) (address : Address)
    (hc : NoCollision c (withoutZeroAccount c).saved) :
    (CommandsLeaveAccount c implementation address ↔ address ≠ Address.zero) ∧
      (AccountLeavesContents c address ↔ address ≠ Address.zero) := by
  refine ⟨⟨?_, ?_⟩, ?_, ?_⟩
  · rintro h rfl
    exact not_commandsLeaveAccount_zero implementation hc h
  · intro h line data call _ memcached state hsound hc'
    exact getAccount_serve hsound memcached hc' (call.buffer_notMem_footprint h)
  · rintro h rfl
    exact not_accountLeavesContents_zero (noCollision_withZeroAccount hc) h
  · intro h account state hsound hc' raw key _
    refine get_setAccount hsound hc' ?_
    intro heq
    exact h (appKey_eq_buffer_iff.mp heq).1

/-- An implementation that answers and does nothing. -/
def silent : Memcached.MemcachedSubset :=
  ⟨fun _ _ => .ok .ok, fun _ _ => .ok none, fun _ _ => ([], none), fun _ _ => ([], none),
    fun _ => .ok [], fun _ => .ok ()⟩

theorem separate_iff_zero :
    (CommandsLeaveAccount .transparent silent Address.zero ↔ Address.zero ≠ Address.zero) ∧
      (AccountLeavesContents .transparent Address.zero ↔ Address.zero ≠ Address.zero) :=
  separate_iff .transparent silent Address.zero (by decide +kernel)

/-- The zero address is an address, and `flush_all` a command. -/
theorem not_separate :
    ¬ ∀ (implementation : Memcached.MemcachedSubset) (address : Address),
      CommandsLeaveAccount .transparent implementation address ∧
        AccountLeavesContents .transparent address := by
  intro h
  exact not_commandsLeaveAccount_zero silent (by decide +kernel) (h silent Address.zero).1

end EasyFramework
end UniqysKit
