import UniqysKit.Blockchain.BlockStore
import UniqysKit.Library.Fallible

/-!
# The synchronizer

`synchronizer.ts`.  Two pieces of asynchronous code change the chain of a node: `chainPendingBlock`,
which a loop calls again and again, and `catchUpAsync`, of which one runs at a time.  Each is a place
in the code where it awaits something (`Chaining`, `CatchUp`) and what it does when it goes on.  An
event lets one of them go on; a write to the store lands at the event at which the code that awaits
it goes on.  The two exclude each other by the write lock of the block store only where they take
it.

What remote nodes answer comes with the events.  Which node is asked, and whether it is dropped
afterwards, makes no difference to the chain and is left out.
-/

namespace UniqysKit
namespace ChainCore

/-! ## Writes -/

/-- What can be written to the block store. -/
inductive Write
  | height (height : Nat)
  | cachedHeight (height : Nat)
  | lastConsensus (consensus : Consensus)
  | header (height : Nat) (header : BlockHeader)
  | body (height : Nat) (body : BlockBody)
  | validatorSet (root : Hash) (validatorSet : ValidatorSet)

def Write.apply (store : BlockStore) : Write → BlockStore
  | .height h => store.setHeight h
  | .cachedHeight h => store.cacheHeight h
  | .lastConsensus cert => store.setLastConsensus cert
  | .header h value => store.setHeader h value
  | .body h value => store.setBody h value
  | .validatorSet root value => store.putValidatorSet root value

/-- The store after a write, if there is one. -/
def land (store : BlockStore) : Option Write → BlockStore
  | some write => write.apply store
  | none => store

/-- The places where `updateHeight` awaits something. -/
inductive Update
  | readHeight
  | setHeight
  /-- between the two parts of `setHeight` -/
  | cacheHeight
  | setLastConsensus
  deriving DecidableEq

/-- `updateHeight` goes on: what it has written, and where it is next. -/
def Update.next (store : BlockStore) (height : Nat) (consensus : Consensus) :
    Update → Option Write × Option Update
  | .readHeight => (none, if height > store.getHeight then some .setHeight else none)
  | .setHeight => (some (.height height), some .cacheHeight)
  | .cacheHeight => (some (.cachedHeight height), some .setLastConsensus)
  | .setLastConsensus => (some (.lastConsensus consensus), none)

/-! ## Chaining pending blocks -/

structure SynchronizerOptions where
  maxFetchHeaders : Nat
  maxFetchBodies : Nat
  maxPendingGap : Nat

/-- An entry of `blockQueue`. -/
structure Pending where
  block : Block
  consensus : Consensus
  fromRemote : Bool
  deriving DecidableEq

def Pending.height (pending : Pending) : Nat := pending.block.header.height

/-- The places where `chainPendingBlock` awaits something. -/
inductive Chaining
  | readHeight
  /-- the read lock of `validatorSetOf` -/
  | takeReadLock
  | getHeader
  | getValidatorSet (root : Hash)
  | takeWriteLock
  | recheckHeight
  | setHeaderAndBody
  /-- the header is written, the body is not -/
  | setBody
  /-- the body is written, the header is not -/
  | setHeader
  | update (stage : Update)
  | propagateBlock
  deriving DecidableEq

/-- How a turn of `chainPendingBlock` goes on. -/
inductive Next
  | await (place : Chaining)
  | finished
  | reEnqueue
  | failed

section Chaining

variable (c : Crypto) (blockchain : Blockchain)

/-- `chainPendingBlock` goes on with a pending block. -/
def Chaining.next (store : BlockStore) (pending : Pending) (bodyFirst : Bool) :
    Chaining → Option Write × Next
  | .readHeight =>
      (none,
        if pending.height > store.getHeight then
          if pending.height = store.getHeight + 1 then
            match pending.block.validate c with
            | .ok _ => .await .takeReadLock
            | .error _ => .failed
          else .reEnqueue
        -- already known block height is simply skipped
        else .finished)
  | .takeReadLock => (none, .await .getHeader)
  | .getHeader =>
      (none,
        match store.getHeader (Blockchain.definingHeight pending.height) with
        | .ok header => .await (.getValidatorSet header.nextValidatorSetRoot)
        | .error _ => .failed)
  | .getValidatorSet root =>
      (none,
        match store.getValidatorSet root with
        | .ok validatorSet =>
            match pending.consensus.validate c (pending.block.hash c) (blockchain.genesisHash c)
                validatorSet with
            | .ok _ => .await .takeWriteLock
            | .error _ => .failed
        | .error _ => .failed)
  | .takeWriteLock => (none, .await .recheckHeight)
  | .recheckHeight =>
      (none,
        if pending.height = store.getHeight + 1 then .await .setHeaderAndBody
        else .await .propagateBlock)
  | .setHeaderAndBody =>
      if bodyFirst then (some (.body pending.height pending.block.body), .await .setHeader)
      else (some (.header pending.height pending.block.header), .await .setBody)
  | .setBody => (some (.body pending.height pending.block.body), .await (.update .readHeight))
  | .setHeader => (some (.header pending.height pending.block.header), .await (.update .readHeight))
  | .update stage =>
      let (write, next) := stage.next store pending.height pending.consensus
      (write,
        match next with
        | some stage => .await (.update stage)
        | none => .await .propagateBlock)
  | .propagateBlock => (none, .finished)

end Chaining

/-- The chaining code has the read lock. -/
def Chaining.reads : Chaining → Bool
  | .getHeader => true
  | .getValidatorSet _ => true
  | _ => false

/-- The chaining code has the write lock. -/
def Chaining.writes : Chaining → Bool
  | .recheckHeight => true
  | .setHeaderAndBody => true
  | .setBody => true
  | .setHeader => true
  | .update _ => true
  | _ => false

/-- The chaining code waits for the lock. -/
def Chaining.locks : Chaining → Bool
  | .takeReadLock => true
  | .takeWriteLock => true
  | _ => false

/-! ## Catching up -/

/-- `Message.ConsentedHeader`. -/
structure ConsentedHeader where
  header : BlockHeader
  consensus : Consensus
  validatorSet : ValidatorSet

def ConsentedHeader.height (consented : ConsentedHeader) : Nat := consented.header.height

/-- A job of `catchUpBodies`: the bodies from one height to another. -/
structure Job where
  first : Nat
  last : Nat
  deriving DecidableEq

def Job.count (job : Job) : Nat := job.last - job.first + 1

/-- The places where a job in progress awaits something. -/
inductive JobStep
  | fetchBodies
  | getHeader (bodies : List BlockBody) (i : Nat)
  | setBody (bodies : List BlockBody) (i : Nat) (body : BlockBody)

/-- The places where `catchUpAsync` awaits something. -/
inductive CatchUp
  | readHeight (bestHeight : Nat)
  | fetchConsentedHeader
  | setLastHeader (consented : ConsentedHeader)
  | readUnknown (consented : ConsentedHeader) (last : BlockHeader)
  | fetchHeaders (consented : ConsentedHeader) (last : BlockHeader) (first count : Nat)
  | setHeader (consented : ConsentedHeader) (header : BlockHeader) (rest : List BlockHeader)
  | readKnown (consented : ConsentedHeader)
  | fetchLoop (consented : ConsentedHeader) (jobQueue : List Job) (inProgress : List (Job × JobStep))
  | takeWriteLock (consented : ConsentedHeader)
  | update (consented : ConsentedHeader) (stage : Update)

/-- What `catchUpAsync` or a job gets. -/
inductive Reply
  /-- the store has done what it was asked for, or the lock is free -/
  | done
  | consentedHeader (consented : ConsentedHeader)
  | headers (headers : List BlockHeader)
  | bodies (bodies : List BlockBody)
  | failed

section CatchUp

variable (c : Crypto) (blockchain : Blockchain) (options : SynchronizerOptions)

/-- The next turn of the `for` loop of `catchUpHeaders`, with `last` above the headers that are left.
A header that does not fit ends the catch up. -/
def nextHeader (consented : ConsentedHeader) (last : BlockHeader) :
    List BlockHeader → Option CatchUp
  | [] => some (.readUnknown consented last)
  | header :: rest =>
      if header.height + 1 ≠ last.height ∨ header.hash c ≠ last.lastBlockHash then none
      else some (.setHeader consented header rest)

/-- The jobs of `catchUpBodies`, from the last on. Each takes `last` down, so `last` turns are
enough. -/
def splitJobs (known : Nat) : Nat → Nat → List Job
  | 0, _ => []
  | turns + 1, last =>
      if known < last then
        ⟨max (last - options.maxFetchBodies) (known + 1), last⟩ ::
          splitJobs known turns (last - options.maxFetchBodies)
      else []

/-- `catchUpAsync` goes on: what it has written, and where it is next, if it has not ended. `none`
where the reply is not one it can get. -/
def CatchUp.next (store : BlockStore) :
    CatchUp → Reply → Option (Option Write × Option CatchUp)
  | .readHeight bestHeight, .done =>
      some (none, if bestHeight ≤ store.getHeight then none else some .fetchConsentedHeader)
  | .fetchConsentedHeader, .consentedHeader consented =>
      -- the validator set is the one that the remote node has sent
      match consented.consensus.validate c (consented.header.hash c) (blockchain.genesisHash c)
          consented.validatorSet with
      | .ok _ => some (none, some (.setLastHeader consented))
      | .error _ => some (none, none)
  | .setLastHeader consented, .done =>
      some (some (.header consented.height consented.header),
        some (.readUnknown consented consented.header))
  | .readUnknown consented last, .done =>
      let unknown := store.getHeight + 1
      if last.height ≤ unknown then some (none, some (.readKnown consented))
      else
        let first := max (last.height - options.maxFetchHeaders) unknown
        some (none, some (.fetchHeaders consented last first (last.height - first)))
  | .fetchHeaders consented last _ _, .headers headers =>
      some (none, nextHeader c consented last headers.reverse)
  | .setHeader consented header rest, .done =>
      some (some (.header header.height header), nextHeader c consented header rest)
  | .readKnown consented, .done =>
      some (none, some (.fetchLoop consented
        (splitJobs options store.getHeight consented.height consented.height) []))
  | .fetchLoop consented [] [], .done => some (none, some (.takeWriteLock consented))
  | .takeWriteLock consented, .done => some (none, some (.update consented .readHeight))
  | .update consented stage, .done =>
      let (write, next) := stage.next store consented.height consented.consensus
      some (write, next.map (CatchUp.update consented))
  | .fetchConsentedHeader, .failed => some (none, none)
  | .fetchHeaders _ _ _ _, .failed => some (none, none)
  | _, _ => none

/-- A job goes on: what it has written, and where it is next. The job is enqueued again where that
is `none`, and it is done where that is `some none`. -/
def JobStep.next (store : BlockStore) (job : Job) :
    JobStep → Reply → Option (Option Write × Option (Option JobStep))
  | .fetchBodies, .bodies bodies => some (none, some (some (.getHeader bodies 0)))
  | .fetchBodies, .failed => some (none, none)
  | .getHeader bodies i, .done =>
      match store.getHeader (job.first + i), bodies[i]? with
      | .ok header, some body =>
          match body.validate c header with
          | .ok _ => some (none, some (some (.setBody bodies i body)))
          | .error _ => some (none, none)
      | _, _ => some (none, none)
  | .setBody bodies i body, .done =>
      some (some (.body (job.first + i) body),
        some (if i + 1 < job.count then some (.getHeader bodies (i + 1)) else none))
  | _, _ => none

end CatchUp

/-- The code of `catchUpAsync` has the write lock. -/
def CatchUp.writes : CatchUp → Bool
  | .update _ _ => true
  | _ => false

/-- The code of `catchUpAsync` waits for the lock. -/
def CatchUp.locks : CatchUp → Bool
  | .takeWriteLock _ => true
  | _ => false

/-! ## The node -/

structure Synchronizer where
  isReady : Bool
  store : BlockStore
  blockQueue : List Pending
  chaining : Option (Pending × Chaining)
  /-- `chainingLoop` was stopped by an error -/
  stopped : Bool
  catchUp : Option CatchUp

namespace Synchronizer

inductive Event
  /-- The node starts, on the store that it has. -/
  | start
  /-- `newBlock` or `newBlockFromLocal`: a block comes in. -/
  | enqueueNewBlock (pending : Pending)
  /-- `fetch` has got a block. -/
  | enqueueBlock (pending : Pending)
  /-- `setNewHeight` of the consensus engine stores a validator set. -/
  | setValidatorSet (validatorSet : ValidatorSet)
  /-- `chainPendingBlock` takes a block from the queue. -/
  | dequeue (pending : Pending)
  | chain (bodyFirst : Bool)
  /-- `catchUp` with the height of the best node. -/
  | catchUp (bestHeight : Nat)
  | catchUpNext (reply : Reply)
  /-- The loop of `catchUpBodies` starts a job. -/
  | startJob (job : Job)
  | jobNext (i : Nat) (reply : Reply)

variable (c : Crypto) (blockchain : Blockchain) (options : SynchronizerOptions)

/-- A node that has nothing under way. -/
def new (isReady : Bool) (store : BlockStore) : Synchronizer where
  isReady
  store
  blockQueue := []
  chaining := none
  stopped := false
  catchUp := none

/-- A node starts without the cache of the height. -/
def start (store : BlockStore) : Synchronizer :=
  match blockchain.ready c { store with cachedHeight := 0 } with
  | .ok _ store => new true store
  | .error _ store => new false store

def chainingReads (s : Synchronizer) : Bool := s.chaining.any fun entry => entry.2.reads

def chainingWrites (s : Synchronizer) : Bool := s.chaining.any fun entry => entry.2.writes

def catchUpWrites (s : Synchronizer) : Bool := s.catchUp.any CatchUp.writes

/-- What lands in the store at an event, and the node after it. -/
def advance (s : Synchronizer) : Event → Option Write × Synchronizer
  | .start => (none, start c blockchain s.store)
  | .enqueueNewBlock pending =>
      let knownHeight := s.store.getHeight
      if pending.height ≤ knownHeight ∨ pending.height - knownHeight > options.maxPendingGap then
        (none, s)
      else (none, { s with blockQueue := s.blockQueue ++ [pending] })
  | .enqueueBlock pending => (none, { s with blockQueue := s.blockQueue ++ [pending] })
  | .setValidatorSet validatorSet =>
      match validatorSet.hash c with
      | .ok root => (some (.validatorSet root validatorSet), s)
      | .error _ => (none, s)
  | .dequeue pending =>
      -- one of the blocks of the lowest height
      if s.chaining.isNone ∧ s.stopped = false ∧ pending ∈ s.blockQueue ∧
          ∀ other ∈ s.blockQueue, pending.height ≤ other.height then
        (none, { s with
          blockQueue := s.blockQueue.erase pending
          chaining := some (pending, .readHeight) })
      else (none, s)
  | .chain bodyFirst =>
      match s.chaining with
      | none => (none, s)
      | some (pending, place) =>
          if place.locks ∧ s.catchUpWrites then (none, s)
          else
            match place.next c blockchain s.store pending bodyFirst with
            | (write, .await place) => (write, { s with chaining := some (pending, place) })
            | (write, .finished) => (write, { s with chaining := none })
            | (write, .reEnqueue) =>
                (write, { s with chaining := none, blockQueue := s.blockQueue ++ [pending] })
            | (write, .failed) =>
                -- the loop does not survive a block of the node itself that fails
                (write, { s with chaining := none, stopped := s.stopped || !pending.fromRemote })
  | .catchUp bestHeight =>
      match s.catchUp with
      | none => (none, { s with catchUp := some (.readHeight bestHeight) })
      | some _ => (none, s)
  | .catchUpNext reply =>
      match s.catchUp with
      | none => (none, s)
      | some place =>
          if place.locks ∧ (s.chainingReads ∨ s.chainingWrites) then (none, s)
          else
            match place.next c blockchain options s.store reply with
            | some (write, next) => (write, { s with catchUp := next })
            | none => (none, s)
  | .startJob job =>
      match s.catchUp with
      | some (.fetchLoop consented jobQueue inProgress) =>
          if job ∈ jobQueue ∧ ∀ other ∈ jobQueue, job.last ≤ other.last then
            (none, { s with
              catchUp := some (.fetchLoop consented (jobQueue.erase job)
                (inProgress ++ [(job, .fetchBodies)])) })
          else (none, s)
      | _ => (none, s)
  | .jobNext i reply =>
      match s.catchUp with
      | some (.fetchLoop consented jobQueue inProgress) =>
          match inProgress[i]? with
          | some (job, step) =>
              match step.next c s.store job reply with
              | some (write, some (some step)) =>
                  (write, { s with
                    catchUp := some (.fetchLoop consented jobQueue (inProgress.set i (job, step))) })
              | some (write, some none) =>
                  (write, { s with
                    catchUp := some (.fetchLoop consented jobQueue (inProgress.eraseIdx i)) })
              | some (write, none) =>
                  (write, { s with
                    catchUp := some (.fetchLoop consented (jobQueue ++ [job])
                      (inProgress.eraseIdx i)) })
              | none => (none, s)
          | none => (none, s)
      | _ => (none, s)

/-- The node after an event. Nothing happens before it is ready. -/
def step (s : Synchronizer) (event : Event) : Synchronizer :=
  match s.isReady, event with
  | false, .start => (s.advance c blockchain options event).2
  | false, _ => s
  | true, _ =>
      let (write, next) := s.advance c blockchain options event
      { next with store := land next.store write }

/-- What the event writes. -/
def written (s : Synchronizer) (event : Event) : Option Write :=
  if s.isReady then (s.advance c blockchain options event).1 else none

/-- The node after some events. -/
def run (s : Synchronizer) (events : List Event) : Synchronizer :=
  events.foldl (fun s event => s.step c blockchain options event) s

/-- A node with an empty store, before it starts. -/
def init : Synchronizer := new false BlockStore.empty

end Synchronizer

end ChainCore
end UniqysKit
