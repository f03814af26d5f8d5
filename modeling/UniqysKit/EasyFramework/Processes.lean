import UniqysKit.EasyFramework.Calls
import UniqysKit.Library.Process

/-!
# Calls between their awaits

The calls of `Calls` as processes: one step for each access to the store, in the order of the source.
A memcached command checks the mode when it comes in, so the check is no part of its process;
`run_process` says that a process that runs alone does what the call does with writing enabled.
-/

namespace UniqysKit
namespace EasyFramework

open Library State

section Definitions

variable (c : Crypto)

namespace EasyMemcached

variable (memcached : EasyMemcached)

/-- The task of `set` behind the mutex. -/
def setProcess (key : Bytes) (flags : Int) (data : Bytes) : Process State :=
  if memcached.useCas then
    .await (memcached.getItem key) fun item =>
      .await (memcached.setItem c key ⟨flags, (item.map Item.casUniq).getD 0 + 1, data⟩) fun _ =>
        .finished
  else .await (memcached.setItem c key ⟨flags, 0 + 1, data⟩) fun _ => .finished

/-- The task of `getAndAct` behind the mutex. -/
def getAndActProcess (key : Bytes) (action : Option Item → Option Item) : Process State :=
  .await (memcached.getItem key) fun item =>
    match action item with
    | some item => .await (memcached.setItem c key item) fun _ => .finished
    | none => .finished

def deleteProcess (key : Bytes) : Process State :=
  .await (memcached.getItem key) fun item =>
    match item with
    | some _ => .await (appDelete c key) fun _ => .finished
    | none => .finished

/-- `get` and `gets`; there is no mutex. -/
def getsProcess : List Bytes → Process State
  | [] => .finished
  | key :: keys =>
      .await (appGet key) fun value =>
        match value.map (Item.deserialize memcached.useCas) with
        | some (.error _) => .finished
        | _ => getsProcess keys

/-- `flush` after the check; there is no mutex. -/
def flushProcess : Process State := .await (appClear c) fun _ => .finished

end EasyMemcached

namespace InnerApi

/-- `GET /accounts/:address`; there is no mutex. -/
def readAccountProcess : Option Address → Process State
  | some address => .await (getAccount address) fun _ => .finished
  | none => .finished

/-- The task of `PUT /accounts/:address/balance` behind the mutex. -/
def putBalanceProcess (address : Option Address) (balance : Option ℚ) : Process State :=
  match address, truthyNumber balance with
  | some address, some balance =>
      .await (getAccount address) fun account =>
        .await (setAccount c address (account.setBalance balance)) fun _ => .finished
  | _, _ => .finished

/-- The task of `POST /accounts/:address/transfer` behind the mutex. -/
def transferProcess (fromAddress toAddress : Option Address) (value : Option ℚ) : Process State :=
  match fromAddress, toAddress, truthyNumber value with
  | some fromAddress, some toAddress, some value =>
      .await (getAccount fromAddress) fun fromAccount =>
        .await (do setAccount c fromAddress (← Action.fromResult (fromAccount.decreaseBalance value)))
          fun _ => .await (getAccount toAddress) fun toAccount =>
            .await (setAccount c toAddress (toAccount.increaseBalance value)) fun _ => .finished
  | _, _, _ => .finished

/-- `PUT /validators`; there is no mutex. -/
def putValidatorsProcess (body : List (Option Address × PowerValue)) : Process State :=
  .await (putValidators body) fun _ => .finished

end InnerApi

namespace Call

def process (memcached : EasyMemcached) : Call → Process State
  | other => .finished
  | retrieve keys _ => memcached.getsProcess keys
  | getAccount address _ => InnerApi.readAccountProcess address
  | set key flags data => memcached.setProcess c key flags data
  | add key flags data =>
      memcached.getAndActProcess c key fun
        | none => some ⟨flags, 1, data⟩
        | some _ => none
  | replace key flags data =>
      memcached.getAndActProcess c key
        (Option.map fun item => ⟨flags, item.casUniq + 1, data⟩)
  | append key data =>
      memcached.getAndActProcess c key
        (Option.map fun item => ⟨item.flags, item.casUniq + 1, item.data ++ data⟩)
  | prepend key data =>
      memcached.getAndActProcess c key
        (Option.map fun item => ⟨item.flags, item.casUniq + 1, data ++ item.data⟩)
  | cas key flags casUniq data =>
      memcached.getAndActProcess c key fun
        | some item => if item.casUniq = casUniq then some ⟨flags, item.casUniq + 1, data⟩ else none
        | none => none
  | delete key => memcached.deleteProcess c key
  | incr key value =>
      memcached.getAndActProcess c key (Option.map fun item =>
        let newCount := ((parseInt item.data).add value).min (.integer EasyMemcached.maxSafeInteger)
        ⟨item.flags, item.casUniq + 1, numberToText newCount⟩)
  | decr key value =>
      memcached.getAndActProcess c key (Option.map fun item =>
        let newCount := ((parseInt item.data).sub value).max (.integer 0)
        ⟨item.flags, item.casUniq + 1, numberToText newCount⟩)
  | flush => EasyMemcached.flushProcess c
  | putBalance address balance => InnerApi.putBalanceProcess c address balance
  | transfer fromAddress toAddress value => InnerApi.transferProcess c fromAddress toAddress value
  | putValidators body => InnerApi.putValidatorsProcess body

end Call

end Definitions

/-! ## A process that runs alone -/

variable {c : Crypto}

namespace EasyMemcached

variable {memcached : EasyMemcached} {state : State}

/-- With writing enabled the check lets everything through. -/
theorem checkWritable_bind {α : Type} (hmode : memcached.mode = .readWrite) (f : Action State α) :
    (do memcached.checkWritable; f) = f := by
  have hcheck : memcached.checkWritable = pure () := by simp [checkWritable, hmode]
  rw [hcheck, pure_bind]

theorem run_setProcess (hmode : memcached.mode = .readWrite) (key : Bytes) (flags : Int)
    (data : Bytes) :
    (memcached.setProcess c key flags data).run state =
      Fallible.final (memcached.set c key flags data state) := by
  unfold setProcess set
  rw [checkWritable_bind hmode]
  split
  · simp only [pure_bind]
    refine Process.run_await ?_
    intro item state
    exact Process.run_await_finished
  · rw [pure_bind]
    exact Process.run_await_finished

theorem run_getAndActProcess (hmode : memcached.mode = .readWrite) (key : Bytes)
    (action : Option Item → Option Item) :
    (memcached.getAndActProcess c key action).run state =
      Fallible.final (memcached.getAndAct c key action state) := by
  unfold getAndActProcess getAndAct
  rw [checkWritable_bind hmode]
  refine Process.run_await ?_
  intro item state
  cases action item with
  | none => rfl
  | some item => exact Process.run_await_finished

theorem run_deleteProcess (hmode : memcached.mode = .readWrite) (key : Bytes) :
    (memcached.deleteProcess c key).run state = Fallible.final (memcached.delete c key state) := by
  unfold deleteProcess delete
  rw [checkWritable_bind hmode]
  refine Process.run_await ?_
  intro item state
  cases item with
  | none => rfl
  | some item => exact Process.run_await_finished

theorem run_getsProcess (keys : List Bytes) :
    (memcached.getsProcess keys).run state = Fallible.final (memcached.gets keys state) := by
  induction keys generalizing state with
  | nil => rfl
  | cons key keys ih =>
      refine Process.run_await ?_
      intro value state
      cases value with
      | none => exact ih
      | some v =>
          simp only [Option.map_some]
          cases Item.deserialize memcached.useCas v with
          | error e => rfl
          | ok item =>
              refine ih.trans ?_
              exact (Fallible.final_bind_pure _ _ _).symm

theorem run_flushProcess (hmode : memcached.mode = .readWrite) :
    (flushProcess c).run state = Fallible.final (memcached.flush c state) := by
  unfold flushProcess flush
  rw [checkWritable_bind hmode]
  exact Process.run_await_finished

end EasyMemcached

namespace InnerApi

variable {state : State}

theorem run_putBalanceProcess (address : Option Address) (balance : Option ℚ) :
    (putBalanceProcess c address balance).run state =
      Fallible.final (putBalance c address balance state) := by
  unfold putBalanceProcess putBalance
  cases address with
  | none => rfl
  | some address =>
      cases truthyNumber balance with
      | none => rfl
      | some balance =>
          simp only [assert400, pure_bind]
          refine Process.run_await ?_
          intro account state
          exact Process.run_await_finished

theorem run_transferProcess (fromAddress toAddress : Option Address) (value : Option ℚ) :
    (transferProcess c fromAddress toAddress value).run state =
      Fallible.final (transfer c fromAddress toAddress value state) := by
  unfold transferProcess transfer
  cases fromAddress with
  | none => rfl
  | some fromAddress =>
      cases toAddress with
      | none => rfl
      | some toAddress =>
          cases truthyNumber value with
          | none => rfl
          | some value =>
              simp only [assert400, pure_bind]
              refine Process.run_await ?_
              intro fromAccount state
              rw [← bind_assoc]
              refine Process.run_await ?_
              intro _ state
              refine Process.run_await ?_
              intro toAccount state
              exact Process.run_await_finished

end InnerApi

/-- A process that nothing comes between does what the call does. -/
theorem Call.run_process (memcached : EasyMemcached) (hmode : memcached.mode = .readWrite)
    (call : Call) (state : State) :
    (call.process c memcached).run state = call.serve c memcached state := by
  cases call with
  | other => rfl
  | retrieve keys withCas =>
      exact (EasyMemcached.run_getsProcess keys).trans (Fallible.final_bind_pure _ _ _).symm
  | getAccount address part =>
      cases address with
      | none => rfl
      | some address => exact Process.run_await_finished.trans (Fallible.final_bind_pure _ _ _).symm
  | set key flags data => exact EasyMemcached.run_setProcess hmode key flags data
  | add key flags data => exact EasyMemcached.run_getAndActProcess hmode key _
  | replace key flags data => exact EasyMemcached.run_getAndActProcess hmode key _
  | append key data => exact EasyMemcached.run_getAndActProcess hmode key _
  | prepend key data => exact EasyMemcached.run_getAndActProcess hmode key _
  | cas key flags casUniq data => exact EasyMemcached.run_getAndActProcess hmode key _
  | delete key => exact EasyMemcached.run_deleteProcess hmode key
  | incr key value => exact EasyMemcached.run_getAndActProcess hmode key _
  | decr key value => exact EasyMemcached.run_getAndActProcess hmode key _
  | flush => exact EasyMemcached.run_flushProcess hmode
  | putBalance address balance => exact InnerApi.run_putBalanceProcess address balance
  | transfer fromAddress toAddress value =>
      exact InnerApi.run_transferProcess fromAddress toAddress value
  | putValidators body => exact Process.run_await_finished

end EasyFramework
end UniqysKit
