import Mathlib.Algebra.Order.Ring.Rat
import UniqysKit.EasyFramework.Transaction
import UniqysKit.Library.BinarySearch

/-!
# The events of the side chain

`EthereumSideChain` of `packages/event-provider/ethereum/src`, which turns the events of a window of
time into transactions.  A window is cut out of the chain by two binary searches over the timestamps
of the blocks.

What `web3` answers about the chain is a parameter.  `getTransactions_eq` says that a window has the
events of the blocks whose timestamps lie in it, whichever way the searches go; so consecutive windows
join (`windows_join`).
-/

namespace UniqysKit
namespace EventProvider

open Library

/-- What was compiled of the contracts, and the address on each network that they are deployed on. -/
structure Artifact where
  abi : String
  networks : Nat → Option String

structure Contract where
  abi : String
  address : String
  deriving DecidableEq

/-- What `web3` answers as long as the chain does not change. -/
structure Web3 (EventLog : Type) where
  netId : Nat
  blockNumber : Nat
  timestamp : Nat → Nat
  getPastEvents : Contract → Nat → Nat → List EventLog

/-- The time of a confirmation is a number of the configuration. -/
structure EthereumOptions where
  confirmationTime : ℚ
  artifactPath : String

structure EthereumSideChain where
  ethOptions : EthereumOptions
  contract : Option Contract

namespace EthereumSideChain

/-- The constructor of a core transaction computes the hash, and throws where the data cannot be
written. -/
def newTransaction (type : TransactionType) (data : Bytes) : Result Transaction :=
  if h : type.toNat < 256 ∧ data.length < 2 ^ 32 then .ok ⟨type.toNat, data, h.1, h.2⟩
  else .error .outOfRange

section Definitions

variable {EventLog : Type} (c : Crypto) (stringify : EventLog → String) (web3 : Web3 EventLog)

def ready (require : String → Result Artifact) : Action EthereumSideChain Unit := do
  let artifact ← Action.fromResult (require (← get).ethOptions.artifactPath)
  match artifact.networks web3.netId with
  | some address => modify fun side => { side with contract := some ⟨artifact.abi, address⟩ }
  | none => throw .typeError

def blockLowerBound (timestamp : ℚ) : Int :=
  lowerBound (fun block => (web3.timestamp block.toNat : ℚ) < timestamp) 0 web3.blockNumber

def pack (event : EventLog) (nonce : Nat) : Result Transaction := do
  let body := (stringify event).toUTF8.toList
  let request : EasyFramework.HttpRequest :=
    ⟨"POST", "/eth", [("content-type", "application/json")], body⟩
  let tx : EasyFramework.Transaction := ⟨nonce, request⟩
  let _ ← tx.hash c
  newTransaction .event (← tx.serialize)

/-- The `forEach` over the events. -/
def packAll : Nat → List EventLog → Result (List Transaction)
  | _, [] => .ok []
  | nonce, event :: events => do
      let tx ← pack c stringify event nonce
      return tx :: (← packAll (nonce + 1) events)

def getTransactions (side : EthereumSideChain) (fromTimestamp toTimestamp : ℚ) (nonce : Nat) :
    Result (List Transaction) :=
  match side.contract with
  | none => .ok []
  | some contract =>
      let fromBlock := blockLowerBound web3 (fromTimestamp - side.ethOptions.confirmationTime)
      -- both ends of a range belong to it, so it ends before the first block that is too late
      let toBlock := blockLowerBound web3 (toTimestamp - side.ethOptions.confirmationTime) - 1
      if fromBlock > toBlock then .ok []
      else packAll c stringify nonce (web3.getPastEvents contract fromBlock.toNat toBlock.toNat)

/-- Windows one after another, each with the nonce after the ones before. -/
def deliver (side : EthereumSideChain) : ℚ → List ℚ → Nat → Result (List Transaction)
  | _, [], _ => .ok []
  | start, next :: ends, nonce => do
      let first ← side.getTransactions c stringify web3 start next nonce
      return first ++ (← deliver side next ends (nonce + first.length))

end Definitions

end EthereumSideChain

/-! ## The chain -/

section Chain

variable {EventLog : Type} (web3 : Web3 EventLog) (eventsIn : Contract → Nat → List EventLog)

/-- No block is earlier than one before it. -/
def Web3.Timed : Prop :=
  ∀ block block', block ≤ block' → block' ≤ web3.blockNumber →
    web3.timestamp block ≤ web3.timestamp block'

/-- `getPastEvents` gives the events of a range of blocks, block by block. -/
def Web3.InOrder : Prop :=
  ∀ contract fromBlock toBlock, fromBlock ≤ toBlock → toBlock ≤ web3.blockNumber →
    web3.getPastEvents contract fromBlock toBlock =
      (List.range' fromBlock (toBlock + 1 - fromBlock)).flatMap (eventsIn contract)

/-- The blocks of a window of time. -/
def Web3.blocksBetween (first last : ℚ) : List Nat :=
  (List.range (web3.blockNumber + 1)).filter fun block =>
    first ≤ web3.timestamp block ∧ web3.timestamp block < last

def Web3.eventsBetween (contract : Contract) (first last : ℚ) : List EventLog :=
  (web3.blocksBetween first last).flatMap (eventsIn contract)

end Chain

/-- Each event is packed with the nonce that follows the one before. -/
def Packed {EventLog : Type} (c : Crypto) (stringify : EventLog → String) (nonce : Nat)
    (events : List EventLog) (txs : List Transaction) : Prop :=
  txs.length = events.length ∧ ∀ i event tx, events[i]? = some event → txs[i]? = some tx →
    EthereumSideChain.pack c stringify event (nonce + i) = .ok tx

/-! ## Windows -/

namespace EthereumSideChain

variable {EventLog : Type} {c : Crypto} {stringify : EventLog → String} {web3 : Web3 EventLog}
  {eventsIn : Contract → Nat → List EventLog}

theorem packed_of_packAll {events : List EventLog} {nonce : Nat} {txs : List Transaction}
    (h : packAll c stringify nonce events = .ok txs) : Packed c stringify nonce events txs := by
  induction events generalizing nonce txs with
  | nil =>
      cases h
      exact ⟨rfl, nofun⟩
  | cons event events ih =>
      rcases Result.bind_eq_ok.mp h with ⟨tx, htx, h⟩
      rcases Result.bind_eq_ok.mp h with ⟨rest, hrest, h⟩
      cases h
      rcases ih hrest with ⟨hlength, hpacked⟩
      refine ⟨by rw [List.length_cons, List.length_cons, hlength], ?_⟩
      intro i event' tx' hevent htx'
      cases i with
      | zero =>
          cases hevent
          cases htx'
          exact htx
      | succ i =>
          rw [← Nat.add_assoc, Nat.add_right_comm]
          exact hpacked i event' tx' hevent htx'

/-- The events of two lists are packed one list after the other. -/
theorem packAll_append (nonce : Nat) (events events' : List EventLog) :
    packAll c stringify nonce (events ++ events') = (do
      let first ← packAll c stringify nonce events
      let second ← packAll c stringify (nonce + first.length) events'
      return first ++ second) := by
  induction events generalizing nonce with
  | nil =>
      rw [List.nil_append, packAll, Result.ok_bind]
      cases packAll c stringify nonce events' with
      | ok second => rfl
      | error e => rfl
  | cons event events ih =>
      rw [List.cons_append, packAll, packAll, ih]
      cases pack c stringify event nonce with
      | error e => rfl
      | ok tx =>
          cases packAll c stringify (nonce + 1) events with
          | error e => rfl
          | ok first =>
              -- the first event is counted on one side of the seam or on the other
              have hnonce : nonce + 1 + first.length = nonce + (first.length + 1) := by omega
              simp only [Result.ok_bind, Result.pure_eq, List.length_cons, hnonce]
              cases packAll c stringify (nonce + (first.length + 1)) events' with
              | error e => rfl
              | ok second => rfl

section Bounds

theorem downwardClosed_of_timed (htimed : web3.Timed) (timestamp : ℚ) :
    DownwardClosed (fun block => decide ((web3.timestamp block.toNat : ℚ) < timestamp)) 0
      web3.blockNumber := by
  intro i j hi hij hj hbelow
  have hle : web3.timestamp i.toNat ≤ web3.timestamp j.toNat :=
    htimed i.toNat j.toNat (by omega) (by omega)
  simp only [decide_eq_true_eq] at hbelow ⊢
  exact (Nat.cast_le.mpr hle).trans_lt hbelow

/-- The search finds the first block that is not before the timestamp. -/
theorem blockLowerBound_spec (htimed : web3.Timed) (timestamp : ℚ) :
    0 ≤ blockLowerBound web3 timestamp ∧ blockLowerBound web3 timestamp ≤ web3.blockNumber + 1 ∧
      ∀ block, block ≤ web3.blockNumber →
        ((web3.timestamp block : ℚ) < timestamp ↔ (block : Int) < blockLowerBound web3 timestamp) := by
  have hsplits := lowerBound_splits (downwardClosed_of_timed htimed timestamp)
  have hge := hsplits.ge
  have hle := hsplits.le
  refine ⟨hge, by rw [blockLowerBound]; omega, ?_⟩
  intro block hblock
  constructor
  · intro hbelow
    by_contra hgt
    refine hsplits.not_below_of_ge block (Int.not_lt.mp hgt) (by omega) ?_
    simpa using hbelow
  · intro hlt
    have hbelow := hsplits.below_of_lt block (by omega) hlt
    simpa using hbelow

/-- The blocks of a window are the ones between the two bounds. -/
theorem blocksBetween_eq (htimed : web3.Timed) (first last : ℚ) :
    web3.blocksBetween first last = List.range' (blockLowerBound web3 first).toNat
      ((blockLowerBound web3 last).toNat - (blockLowerBound web3 first).toNat) := by
  rcases blockLowerBound_spec htimed first with ⟨hge, -, hfirst⟩
  rcases blockLowerBound_spec htimed last with ⟨hge', hle', hlast⟩
  refine filter_range (by omega) ?_
  intro block hblock
  rw [decide_eq_true_eq, ← not_lt, hfirst block (by omega), hlast block (by omega)]
  omega

theorem blockLowerBound_mono (htimed : web3.Timed) {first last : ℚ} (h : first ≤ last) :
    blockLowerBound web3 first ≤ blockLowerBound web3 last := by
  refine lowerBound_mono (downwardClosed_of_timed htimed first) (downwardClosed_of_timed htimed last) ?_
  intro block hbelow
  simp only [decide_eq_true_eq] at hbelow ⊢
  exact hbelow.trans_le h

theorem eventsBetween_append (htimed : web3.Timed) (contract : Contract) {first middle last : ℚ}
    (hmiddle : first ≤ middle) (hlast : middle ≤ last) :
    web3.eventsBetween eventsIn contract first last =
      web3.eventsBetween eventsIn contract first middle ++
        web3.eventsBetween eventsIn contract middle last := by
  have hle := blockLowerBound_mono htimed hmiddle
  have hle' := blockLowerBound_mono htimed hlast
  have hge := (blockLowerBound_spec htimed first).1
  have hcount : (blockLowerBound web3 last).toNat - (blockLowerBound web3 first).toNat =
      (blockLowerBound web3 middle).toNat - (blockLowerBound web3 first).toNat +
        ((blockLowerBound web3 last).toNat - (blockLowerBound web3 middle).toNat) := by omega
  have hstart : (blockLowerBound web3 first).toNat + ((blockLowerBound web3 middle).toNat -
      (blockLowerBound web3 first).toNat) = (blockLowerBound web3 middle).toNat := by omega
  -- the blocks of the windows are ranges that meet at the bound of `middle`
  have hblocks : web3.blocksBetween first last =
      web3.blocksBetween first middle ++ web3.blocksBetween middle last := by
    calc
      web3.blocksBetween first last
          = List.range' (blockLowerBound web3 first).toNat
              ((blockLowerBound web3 middle).toNat - (blockLowerBound web3 first).toNat +
                ((blockLowerBound web3 last).toNat - (blockLowerBound web3 middle).toNat)) := by
            rw [blocksBetween_eq htimed, hcount]
      _ = List.range' (blockLowerBound web3 first).toNat
              ((blockLowerBound web3 middle).toNat - (blockLowerBound web3 first).toNat) ++
            List.range' (blockLowerBound web3 middle).toNat
              ((blockLowerBound web3 last).toNat - (blockLowerBound web3 middle).toNat) := by
            rw [← List.range'_append_1, hstart]
      _ = web3.blocksBetween first middle ++ web3.blocksBetween middle last := by
            rw [blocksBetween_eq htimed, blocksBetween_eq htimed]
  rw [Web3.eventsBetween, hblocks, List.flatMap_append]
  rfl

end Bounds

section Transactions

variable {side : EthereumSideChain} {contract : Contract}

/-- A window has the events of the blocks whose timestamps, confirmed, lie in it. -/
theorem getTransactions_eq (htimed : web3.Timed) (horder : web3.InOrder eventsIn)
    (hcontract : side.contract = some contract) (fromTimestamp toTimestamp : ℚ) (nonce : Nat) :
    side.getTransactions c stringify web3 fromTimestamp toTimestamp nonce =
      packAll c stringify nonce (web3.eventsBetween eventsIn contract
        (fromTimestamp - side.ethOptions.confirmationTime)
        (toTimestamp - side.ethOptions.confirmationTime)) := by
  simp only [getTransactions, hcontract, Web3.eventsBetween, blocksBetween_eq htimed]
  generalize hfirst : fromTimestamp - side.ethOptions.confirmationTime = first
  generalize hlast : toTimestamp - side.ethOptions.confirmationTime = last
  rcases blockLowerBound_spec htimed first with ⟨hge, -, -⟩
  rcases blockLowerBound_spec htimed last with ⟨hge', hle', -⟩
  split
  · -- no block lies in the window
    rename_i hgt
    have hnone : (blockLowerBound web3 last).toNat - (blockLowerBound web3 first).toNat = 0 := by
      omega
    rw [hnone]
    rfl
  · -- `toBlock` is not negative here, so no block is lost to the cut-off subtraction
    rename_i hle
    have hcount : (blockLowerBound web3 last - 1).toNat + 1 - (blockLowerBound web3 first).toNat =
        (blockLowerBound web3 last).toNat - (blockLowerBound web3 first).toNat := by omega
    rw [horder contract _ _ (by omega) (by omega), hcount]

theorem exists_contract {require : String → Result Artifact} {side' : EthereumSideChain}
    (h : ready web3 require side = .ok () side') : ∃ contract, side'.contract = some contract := by
  rw [ready, Fallible.get_bind] at h
  cases hartifact : require side.ethOptions.artifactPath with
  | error e =>
      rw [Action.fromResult_bind_error hartifact] at h
      cases h
  | ok artifact =>
      rw [Action.fromResult_bind_ok hartifact] at h
      cases haddress : artifact.networks web3.netId with
      | none =>
          rw [haddress] at h
          cases h
      | some address =>
          rw [haddress] at h
          cases h
          exact ⟨_, rfl⟩

theorem getTransactions_self (timestamp : ℚ) (nonce : Nat) :
    side.getTransactions c stringify web3 timestamp timestamp nonce = .ok [] := by
  rw [getTransactions]
  cases side.contract with
  | none => rfl
  | some contract =>
      have hgt : ∀ block : Int, block > block - 1 := fun block => by omega
      exact if_pos (hgt _)

theorem getTransactions_append (htimed : web3.Timed) (horder : web3.InOrder eventsIn)
    (hcontract : side.contract = some contract) {a b c' : ℚ} (nonce : Nat) (hab : a ≤ b)
    (hbc : b ≤ c') :
    side.getTransactions c stringify web3 a c' nonce = (do
      let first ← side.getTransactions c stringify web3 a b nonce
      let second ← side.getTransactions c stringify web3 b c' (nonce + first.length)
      return first ++ second) := by
  simp only [getTransactions_eq htimed horder hcontract]
  rw [eventsBetween_append htimed contract (sub_le_sub_right hab _) (sub_le_sub_right hbc _),
    packAll_append]

/-- Windows one after another are one window. -/
theorem deliver_eq (htimed : web3.Timed) (horder : web3.InOrder eventsIn)
    (hcontract : side.contract = some contract) {start : ℚ} {ends : List ℚ}
    (hends : (start :: ends).Pairwise (· ≤ ·)) (nonce : Nat) :
    side.deliver c stringify web3 start ends nonce =
      side.getTransactions c stringify web3 start (ends.getLast?.getD start) nonce := by
  induction ends generalizing start nonce with
  | nil => exact (getTransactions_self start nonce).symm
  | cons next ends ih =>
      rcases List.pairwise_cons.mp hends with ⟨hstart, hrest⟩
      -- the first window and all the others together meet at `next`
      have hlast : next ≤ ends.getLast?.getD next := by
        cases hlast : ends.getLast? with
        | none => exact le_rfl
        | some last => exact (List.pairwise_cons.mp hrest).1 last (List.mem_of_getLast? hlast)
      rw [deliver, List.getLast?_cons, Option.getD_some,
        getTransactions_append htimed horder hcontract nonce (hstart next List.mem_cons_self) hlast]
      simp only [ih hrest]

end Transactions

/-- After `ready`: two windows that meet have the transactions of the window that they make up, and
windows one after another bring each event of a block in their time, once, in order and with the
nonces one after another. -/
theorem windows_join (c : Crypto) (stringify : EventLog → String) (web3 : Web3 EventLog)
    (eventsIn : Contract → Nat → List EventLog) (require : String → Result Artifact)
    (side side' : EthereumSideChain) (hready : ready web3 require side = .ok () side')
    (htimed : web3.Timed) (horder : web3.InOrder eventsIn) :
    (∀ a b c' nonce, a ≤ b → b ≤ c' →
      side'.getTransactions c stringify web3 a c' nonce = (do
        let first ← side'.getTransactions c stringify web3 a b nonce
        let second ← side'.getTransactions c stringify web3 b c' (nonce + first.length)
        return first ++ second)) ∧
    ∀ start ends nonce txs, (start :: ends).Pairwise (· ≤ ·) →
      side'.deliver c stringify web3 start ends nonce = .ok txs →
      ∃ contract, side'.contract = some contract ∧
        Packed c stringify nonce (web3.eventsBetween eventsIn contract
          (start - side'.ethOptions.confirmationTime)
          (ends.getLast?.getD start - side'.ethOptions.confirmationTime)) txs := by
  rcases exists_contract hready with ⟨contract, hcontract⟩
  refine ⟨?_, ?_⟩
  · intro a b c' nonce hab hbc
    exact getTransactions_append htimed horder hcontract nonce hab hbc
  · intro start ends nonce txs hends hdeliver
    rw [deliver_eq htimed horder hcontract hends,
      getTransactions_eq htimed horder hcontract] at hdeliver
    exact ⟨contract, hcontract, packed_of_packAll hdeliver⟩

/-! ### A chain of four blocks -/

/-- The events are numbers here: that of the block, twice. -/
def sampleEventsIn : Contract → Nat → List Nat := fun _ block => [block, block]

/-- The two blocks in the middle have the same timestamp. -/
def sampleWeb3 : Web3 Nat where
  netId := 1
  blockNumber := 3
  timestamp block := if block = 0 then 10 else if block < 3 then 20 else 30
  getPastEvents contract fromBlock toBlock :=
    (List.range' fromBlock (toBlock + 1 - fromBlock)).flatMap (sampleEventsIn contract)

def sampleRequire : String → Result Artifact := fun _ => .ok ⟨"[]", fun _ => some "0x00"⟩

def sampleSideChain (contract : Option Contract) : EthereumSideChain := ⟨⟨5, "artifact"⟩, contract⟩

theorem timed_sampleWeb3 : sampleWeb3.Timed := by
  intro block block' hle hbound
  simp only [sampleWeb3]
  split_ifs <;> omega

theorem windows_join_sample :
    (sampleSideChain (some ⟨"[]", "0x00"⟩)).getTransactions .transparent Nat.repr sampleWeb3 15 40 1 =
      (do
        let first ← (sampleSideChain (some ⟨"[]", "0x00"⟩)).getTransactions .transparent Nat.repr
          sampleWeb3 15 25 1
        let second ← (sampleSideChain (some ⟨"[]", "0x00"⟩)).getTransactions .transparent Nat.repr
          sampleWeb3 25 40 (1 + first.length)
        return first ++ second) :=
  (windows_join .transparent Nat.repr sampleWeb3 sampleEventsIn sampleRequire (sampleSideChain none)
    (sampleSideChain (some ⟨"[]", "0x00"⟩)) rfl timed_sampleWeb3 (fun _ _ _ _ _ => rfl)).1
    15 25 40 1 (by norm_num) (by norm_num)

end EthereumSideChain
end EventProvider
end UniqysKit
