import UniqysKit.ChainCore.Synchronizer
import UniqysKit.Library.Runs
import UniqysKit.PriorityQueue

/-!
# What an event can do to the synchronizer

`Moves` lists every way in which an event changes the node: the code goes on to its next `await`
without a write, or a write lands.  The guards that the code has passed are part of the list, so
invariants are shown by going through it, and not through the code.
-/

namespace UniqysKit
namespace ChainCore

open Library

/-! ## The queue of blocks -/

/-- What is put into `blockQueue`. -/
def Pending.item (pending : Pending) : Utility.Item Pending := ⟨pending.height, pending⟩

/-- The queue orders the blocks by `Utility.ascending`, so the one that it gives is one of those that
`dequeue` takes here: a block of the lowest height. -/
theorem greatest_blockQueue (blockQueue : List Pending) (pending : Pending) :
    PriorityQueue.Greatest Utility.ascending (blockQueue.map Pending.item : Multiset _)
        (some pending.item) ↔
      pending ∈ blockQueue ∧ ∀ other ∈ blockQueue, pending.height ≤ other.height := by
  have hmem : ∀ {pending : Pending}, pending.item ∈ blockQueue.map Pending.item ↔
      pending ∈ blockQueue := by
    intro pending
    refine ⟨fun h => ?_, List.mem_map_of_mem⟩
    rcases List.mem_map.mp h with ⟨other, hother, hsame⟩
    obtain rfl : other = pending := congrArg Utility.Item.value hsame
    exact hother
  have hlowest : ∀ other : Pending, Utility.ascending other.item pending.item ≤ 0 ↔
      pending.height ≤ other.height := by
    intro other
    rw [Utility.ascending, sub_nonpos]
    exact Nat.cast_le
  simp only [PriorityQueue.Greatest, Multiset.mem_coe, hmem, List.forall_mem_map, hlowest]

/-- Whatever is put into the queue and taken out, it gives a block of the lowest height. -/
theorem blockQueue_follows (commands : List (PriorityQueue.Command (Utility.Item Pending))) :
    ∃ steps, PriorityQueue.new.serveAll Utility.ascending commands = some steps ∧
      PriorityQueue.Follows Utility.ascending 0 commands
        (steps.map fun step => (step.1, step.2.contents)) :=
  PriorityQueue.isHeap_new.serveAll PriorityQueue.ascending_totalPreorder commands

/-! ## Chaining -/

section Chaining

variable (c : Crypto) (blockchain : Blockchain) (s : Synchronizer) (pending : Pending)

/-- `chainPendingBlock` goes on without a write. -/
inductive Chaining.Goes : Chaining → Chaining → Prop
  | check (hheight : pending.height = s.store.getHeight + 1)
      (hvalid : pending.block.validate c = .ok ()) : Goes .readHeight .takeReadLock
  | readLock (hfree : s.catchUpWrites = false) : Goes .takeReadLock .getHeader
  | header {header : BlockHeader}
      (hheader : s.store.header (Blockchain.definingHeight pending.height) = some header) :
      Goes .getHeader (.getValidatorSet header.nextValidatorSetRoot)
  | validate {root : Hash} {validatorSet : ValidatorSet}
      (hstored : s.store.validatorSet root = some validatorSet)
      (hvalid : pending.consensus.validate c (pending.block.hash c) (blockchain.genesisHash c)
        validatorSet = .ok ()) : Goes (.getValidatorSet root) .takeWriteLock
  | writeLock (hfree : s.catchUpWrites = false) : Goes .takeWriteLock .recheckHeight
  | recheck (hheight : pending.height = s.store.getHeight + 1) :
      Goes .recheckHeight .setHeaderAndBody
  | late (hheight : pending.height ≠ s.store.getHeight + 1) : Goes .recheckHeight .propagateBlock
  | higher (hheight : s.store.getHeight < pending.height) :
      Goes (.update .readHeight) (.update .setHeight)
  | lower (hheight : pending.height ≤ s.store.getHeight) :
      Goes (.update .readHeight) .propagateBlock

/-- A write of `chainPendingBlock` lands. -/
inductive Chaining.Writes : Chaining → Write → Chaining → Prop
  | headerFirst : Writes .setHeaderAndBody (.header pending.height pending.block.header) .setBody
  | bodyFirst : Writes .setHeaderAndBody (.body pending.height pending.block.body) .setHeader
  | body : Writes .setBody (.body pending.height pending.block.body) (.update .readHeight)
  | header : Writes .setHeader (.header pending.height pending.block.header) (.update .readHeight)
  | height : Writes (.update .setHeight) (.height pending.height) (.update .cacheHeight)
  | cachedHeight :
      Writes (.update .cacheHeight) (.cachedHeight pending.height) (.update .setLastConsensus)
  | lastConsensus :
      Writes (.update .setLastConsensus) (.lastConsensus pending.consensus) .propagateBlock

/-- The places at which a turn of `chainPendingBlock` can end. -/
def Chaining.ends : Chaining → Bool
  | .readHeight => true
  | .getHeader => true
  | .getValidatorSet _ => true
  | .propagateBlock => true
  | _ => false

/-- What `Chaining.next` can give. -/
theorem Chaining.next_cases {place : Chaining} (bodyFirst : Bool)
    (hfree : ¬ (place.locks = true ∧ s.catchUpWrites = true)) :
    (∃ place', place.next c blockchain s.store pending bodyFirst = (none, .await place') ∧
      place.Goes c blockchain s pending place') ∨
    (∃ write place', place.next c blockchain s.store pending bodyFirst =
      (some write, .await place') ∧ place.Writes pending write place') ∨
    place.ends = true ∧ ∃ next, place.next c blockchain s.store pending bodyFirst = (none, next) ∧
      ∀ place', next ≠ .await place' := by
  cases place with
  | readHeight =>
      rw [Chaining.next]
      split
      · split
        · rename_i hheight
          -- the next block goes on if it is valid; any other one ends the turn
          cases hvalid : pending.block.validate c with
          | ok _ => exact .inl ⟨_, rfl, .check hheight hvalid⟩
          | error e => exact .inr (.inr ⟨rfl, _, rfl, nofun⟩)
        · exact .inr (.inr ⟨rfl, _, rfl, nofun⟩)
      · exact .inr (.inr ⟨rfl, _, rfl, nofun⟩)
  | takeReadLock =>
      refine .inl ⟨_, rfl, .readLock ?_⟩
      simpa [Chaining.locks] using hfree
  | getHeader =>
      rw [Chaining.next]
      cases hheader : s.store.getHeader (Blockchain.definingHeight pending.height) with
      | ok header => exact .inl ⟨_, rfl, .header (BlockStore.getHeader_eq_ok.mp hheader)⟩
      | error e => exact .inr (.inr ⟨rfl, _, rfl, nofun⟩)
  | getValidatorSet root =>
      rw [Chaining.next]
      cases hstored : s.store.getValidatorSet root with
      | ok validatorSet =>
          simp only
          cases hvalid : pending.consensus.validate c (pending.block.hash c)
              (blockchain.genesisHash c) validatorSet with
          | ok _ =>
              exact .inl ⟨_, rfl, .validate (BlockStore.getValidatorSet_eq_ok.mp hstored) hvalid⟩
          | error e => exact .inr (.inr ⟨rfl, _, rfl, nofun⟩)
      | error e => exact .inr (.inr ⟨rfl, _, rfl, nofun⟩)
  | takeWriteLock =>
      refine .inl ⟨_, rfl, .writeLock ?_⟩
      simpa [Chaining.locks] using hfree
  | recheckHeight =>
      rw [Chaining.next]
      split
      · rename_i hheight
        exact .inl ⟨_, rfl, .recheck hheight⟩
      · rename_i hheight
        -- other code was faster: the lock is given back and nothing is written
        exact .inl ⟨_, rfl, .late hheight⟩
  | setHeaderAndBody =>
      cases bodyFirst with
      | true => exact .inr (.inl ⟨_, _, rfl, .bodyFirst⟩)
      | false => exact .inr (.inl ⟨_, _, rfl, .headerFirst⟩)
  | setBody => exact .inr (.inl ⟨_, _, rfl, .body⟩)
  | setHeader => exact .inr (.inl ⟨_, _, rfl, .header⟩)
  | update stage =>
      cases stage with
      | readHeight =>
          by_cases hheight : pending.height > s.store.getHeight
          · refine .inl ⟨.update .setHeight, ?_, .higher hheight⟩
            simp only [Chaining.next, Update.next, if_pos hheight]
          · refine .inl ⟨.propagateBlock, ?_, .lower (Nat.not_lt.mp hheight)⟩
            simp only [Chaining.next, Update.next, if_neg hheight]
      | setHeight => exact .inr (.inl ⟨_, _, rfl, .height⟩)
      | cacheHeight => exact .inr (.inl ⟨_, _, rfl, .cachedHeight⟩)
      | setLastConsensus => exact .inr (.inl ⟨_, _, rfl, .lastConsensus⟩)
  | propagateBlock => exact .inr (.inr ⟨rfl, _, rfl, nofun⟩)

end Chaining

/-! ## Catching up -/

section CatchUp

variable (c : Crypto) (blockchain : Blockchain) (s : Synchronizer)

/-- `catchUpAsync` goes on without a write; `none` is its end. -/
inductive CatchUp.Goes : CatchUp → Option CatchUp → Prop
  | known {bestHeight : Nat} : Goes (.readHeight bestHeight) none
  | fetch {bestHeight : Nat} : Goes (.readHeight bestHeight) (some .fetchConsentedHeader)
  | refused : Goes .fetchConsentedHeader none
  | consented {consented : ConsentedHeader}
      (hvalid : consented.consensus.validate c (consented.header.hash c) (blockchain.genesisHash c)
        consented.validatorSet = .ok ()) :
      Goes .fetchConsentedHeader (some (.setLastHeader consented))
  | bottom {consented : ConsentedHeader} {last : BlockHeader}
      (hheight : last.height ≤ s.store.getHeight + 1) :
      Goes (.readUnknown consented last) (some (.readKnown consented))
  | above {consented : ConsentedHeader} {last : BlockHeader} {first count : Nat}
      (hheight : s.store.getHeight + 1 < last.height) :
      Goes (.readUnknown consented last) (some (.fetchHeaders consented last first count))
  | headers {consented : ConsentedHeader} {last : BlockHeader} {first count : Nat}
      {headers : List BlockHeader} :
      Goes (.fetchHeaders consented last first count) (nextHeader c consented last headers)
  | failed {consented : ConsentedHeader} {last : BlockHeader} {first count : Nat} :
      Goes (.fetchHeaders consented last first count) none
  | split {consented : ConsentedHeader} {jobQueue : List Job} :
      Goes (.readKnown consented) (some (.fetchLoop consented jobQueue []))
  | job {consented : ConsentedHeader} {jobQueue jobQueue' : List Job}
      {inProgress inProgress' : List (Job × JobStep)} :
      Goes (.fetchLoop consented jobQueue inProgress)
        (some (.fetchLoop consented jobQueue' inProgress'))
  | loaded {consented : ConsentedHeader} :
      Goes (.fetchLoop consented [] []) (some (.takeWriteLock consented))
  | writeLock {consented : ConsentedHeader} (hreads : s.chainingReads = false)
      (hwrites : s.chainingWrites = false) :
      Goes (.takeWriteLock consented) (some (.update consented .readHeight))
  | higher {consented : ConsentedHeader} (hheight : s.store.getHeight < consented.height) :
      Goes (.update consented .readHeight) (some (.update consented .setHeight))
  | lower {consented : ConsentedHeader} : Goes (.update consented .readHeight) none

/-- A write of `catchUpAsync` lands. -/
inductive CatchUp.Writes : CatchUp → Write → Option CatchUp → Prop
  | last {consented : ConsentedHeader} :
      Writes (.setLastHeader consented) (.header consented.height consented.header)
        (some (.readUnknown consented consented.header))
  | header {consented : ConsentedHeader} {header : BlockHeader} {rest : List BlockHeader} :
      Writes (.setHeader consented header rest) (.header header.height header)
        (nextHeader c consented header rest)
  | body {consented : ConsentedHeader} {jobQueue : List Job}
      {inProgress inProgress' : List (Job × JobStep)} {height : Nat} {body : BlockBody} :
      Writes (.fetchLoop consented jobQueue inProgress) (.body height body)
        (some (.fetchLoop consented jobQueue inProgress'))
  | height {consented : ConsentedHeader} :
      Writes (.update consented .setHeight) (.height consented.height)
        (some (.update consented .cacheHeight))
  | cachedHeight {consented : ConsentedHeader} :
      Writes (.update consented .cacheHeight) (.cachedHeight consented.height)
        (some (.update consented .setLastConsensus))
  | lastConsensus {consented : ConsentedHeader} :
      Writes (.update consented .setLastConsensus) (.lastConsensus consented.consensus) none

/-- The header of an answer that `catchUpAsync` stores next. -/
def CatchUp.header : CatchUp → Option BlockHeader
  | .setLastHeader consented => some consented.header
  | .setHeader _ header _ => some header
  | _ => none

/-- The body of an answer that the job stores next, and its height. -/
def CatchUp.body (i : Nat) : CatchUp → Option (Nat × BlockBody)
  | .fetchLoop _ _ inProgress =>
      match inProgress[i]? with
      | some (job, .setBody _ n body) => some (job.first + n, body)
      | _ => none
  | _ => none

/-- No job is in progress while the headers are stored. -/
theorem CatchUp.body_of_header {place : CatchUp} {header : BlockHeader}
    (h : place.header = some header) (i : Nat) : place.body i = none := by
  cases place with
  | fetchLoop consented jobQueue inProgress => cases h
  | _ => rfl

/-- What the loop over fetched headers can come to: it has passed a header on only if that is linked
to the one above. -/
theorem nextHeader_cases {consented : ConsentedHeader} {last : BlockHeader}
    {headers : List BlockHeader} {place : CatchUp}
    (h : nextHeader c consented last headers = some place) :
    place = .readUnknown consented last ∨
      ∃ header rest, place = .setHeader consented header rest ∧ header.height + 1 = last.height ∧
        header.hash c = last.lastBlockHash := by
  cases headers with
  | nil => exact .inl (Option.some.inj h).symm
  | cons header rest =>
      rw [nextHeader] at h
      split at h
      · cases h
      · rename_i hlinked
        push Not at hlinked
        exact .inr ⟨header, rest, (Option.some.inj h).symm, hlinked⟩

/-- What `CatchUp.next` can give. -/
theorem CatchUp.next_cases {options : SynchronizerOptions} {place : CatchUp} {reply : Reply}
    {write : Option Write} {next : Option CatchUp}
    (hfree : ¬ (place.locks = true ∧ (s.chainingReads = true ∨ s.chainingWrites = true)))
    (h : place.next c blockchain options s.store reply = some (write, next)) :
    (write = none ∧ place.Goes c blockchain s next) ∨
      ∃ written, write = some written ∧ place.Writes c written next := by
  unfold CatchUp.next at h
  split at h
  · cases h
    split
    · exact .inl ⟨rfl, .known⟩
    · exact .inl ⟨rfl, .fetch⟩
  · split at h
    · rename_i hvalid
      cases h
      exact .inl ⟨rfl, .consented hvalid⟩
    · cases h
      exact .inl ⟨rfl, .refused⟩
  · cases h
    exact .inr ⟨_, rfl, .last⟩
  · simp only at h
    split at h
    · rename_i hheight
      cases h
      -- the headers have come down to the known ones
      exact .inl ⟨rfl, .bottom hheight⟩
    · rename_i hheight
      cases h
      exact .inl ⟨rfl, .above (Nat.not_le.mp hheight)⟩
  · cases h
    exact .inl ⟨rfl, .headers⟩
  · cases h
    exact .inr ⟨_, rfl, .header⟩
  · cases h
    exact .inl ⟨rfl, .split⟩
  · cases h
    exact .inl ⟨rfl, .loaded⟩
  · cases h
    simp only [CatchUp.locks, true_and, not_or, Bool.not_eq_true] at hfree
    exact .inl ⟨rfl, .writeLock hfree.1 hfree.2⟩
  -- the places of `updateHeight`, under the write lock
  · rename_i consented stage
    cases stage with
    | readHeight =>
        simp only [Update.next] at h
        split at h
        · rename_i hheight
          cases h
          exact .inl ⟨rfl, .higher hheight⟩
        · cases h
          exact .inl ⟨rfl, .lower⟩
    | setHeight =>
        cases h
        exact .inr ⟨_, rfl, .height⟩
    | cacheHeight =>
        cases h
        exact .inr ⟨_, rfl, .cachedHeight⟩
    | setLastConsensus =>
        cases h
        exact .inr ⟨_, rfl, .lastConsensus⟩
  · cases h
    exact .inl ⟨rfl, .refused⟩
  · cases h
    exact .inl ⟨rfl, .failed⟩
  · cases h

/-- A write of `catchUpAsync` is followed by an answer of the store. -/
theorem CatchUp.next_done {c : Crypto} {blockchain : Blockchain} {options : SynchronizerOptions}
    {store : BlockStore} {place : CatchUp} {reply : Reply} {write : Write} {next : Option CatchUp}
    (h : place.next c blockchain options store reply = some (some write, next)) :
    reply = .done := by
  cases reply with
  | done => rfl
  -- the answers of the remote node are looked at before anything is written
  | consentedHeader consented =>
      cases place with
      | fetchConsentedHeader =>
          simp only [CatchUp.next] at h
          split at h
          · cases h
          · cases h
      | fetchLoop consented jobQueue inProgress => cases jobQueue <;> cases inProgress <;> cases h
      | _ => cases h
  | headers headers =>
      cases place with
      | fetchLoop consented jobQueue inProgress => cases jobQueue <;> cases inProgress <;> cases h
      | _ => cases h
  | bodies bodies =>
      cases place with
      | fetchLoop consented jobQueue inProgress => cases jobQueue <;> cases inProgress <;> cases h
      | _ => cases h
  | failed =>
      cases place with
      | fetchLoop consented jobQueue inProgress => cases jobQueue <;> cases inProgress <;> cases h
      | _ => cases h

/-- The header that `catchUpAsync` writes is the one it has got, and it writes no body. -/
theorem CatchUp.next_header {c : Crypto} {blockchain : Blockchain} {options : SynchronizerOptions}
    {store : BlockStore} {place : CatchUp} {h : Nat} {header : BlockHeader} {next : Option CatchUp}
    (hnext : place.next c blockchain options store .done = some (some (.header h header), next)) :
    place.header = some header ∧ h = header.height := by
  cases place with
  | setLastHeader consented => cases hnext; exact ⟨rfl, rfl⟩
  | setHeader consented header rest => cases hnext; exact ⟨rfl, rfl⟩
  | readUnknown consented last =>
      simp only [CatchUp.next] at hnext
      split at hnext
      · cases hnext
      · cases hnext
  | update consented stage => cases stage <;> cases hnext
  | fetchLoop consented jobQueue inProgress => cases jobQueue <;> cases inProgress <;> cases hnext
  | _ => cases hnext

theorem CatchUp.next_ne_body {c : Crypto} {blockchain : Blockchain} {options : SynchronizerOptions}
    {store : BlockStore} {place : CatchUp} {h : Nat} {body : BlockBody} {next : Option CatchUp} :
    place.next c blockchain options store .done ≠ some (some (.body h body), next) := by
  intro hnext
  cases place with
  | readUnknown consented last =>
      simp only [CatchUp.next] at hnext
      split at hnext
      · cases hnext
      · cases hnext
  | update consented stage => cases stage <;> cases hnext
  | fetchLoop consented jobQueue inProgress => cases jobQueue <;> cases inProgress <;> cases hnext
  | _ => cases hnext

theorem JobStep.next_written {c : Crypto} {store : BlockStore} {job : Job} {step : JobStep}
    {reply : Reply} {write : Write} {next : Option (Option JobStep)}
    (h : step.next c store job reply = some (some write, next)) :
    reply = .done ∧ ∃ bodies n body, step = .setBody bodies n body ∧
      write = .body (job.first + n) body := by
  unfold JobStep.next at h
  split at h
  · cases h
  · cases h
  · repeat' split at h
    all_goals cases h
  · cases h
    exact ⟨rfl, _, _, _, rfl, rfl⟩
  · cases h

/-- What a job writes is a body. -/
theorem JobStep.next_cases {job : Job} {step : JobStep} {reply : Reply} {write : Option Write}
    {next : Option (Option JobStep)} (h : step.next c s.store job reply = some (write, next)) :
    write = none ∨ next ≠ none ∧ ∃ height body, write = some (.body height body) := by
  unfold JobStep.next at h
  split at h
  · cases h
    exact .inl rfl
  · cases h
    exact .inl rfl
  · split at h
    · split at h
      · cases h
        exact .inl rfl
      · cases h
        exact .inl rfl
    · cases h
      exact .inl rfl
  · cases h
    exact .inr ⟨nofun, _, _, rfl⟩
  · cases h

end CatchUp

/-! ## Events -/

namespace Synchronizer

/-- The event lets `catchUpAsync` or one of its jobs go on. -/
def Event.catchesUp : Event → Bool
  | .catchUpNext _ => true
  | .startJob _ => true
  | .jobNext _ _ => true
  | _ => false

section Moves

variable (c : Crypto) (blockchain : Blockchain) (options : SynchronizerOptions) (s : Synchronizer)

/-- The ways in which an event changes a node that is ready. -/
inductive Moves : Event → Synchronizer → Prop
  | stay {event : Event} : Moves event s
  | start : Moves .start (start c blockchain s.store)
  | queue {event : Event} {blockQueue : List Pending} : Moves event { s with blockQueue }
  | validatorSet {validatorSet : ValidatorSet} {root : Hash} (hroot : validatorSet.hash c = .ok root) :
      Moves (.setValidatorSet validatorSet)
        { s with store := s.store.putValidatorSet root validatorSet }
  | dequeue {pending : Pending} {blockQueue : List Pending} (hnone : s.chaining = none) :
      Moves (.dequeue pending) { s with blockQueue, chaining := some (pending, .readHeight) }
  | chainEnds {bodyFirst stopped : Bool} {pending : Pending} {place : Chaining}
      {blockQueue : List Pending} (hat : s.chaining = some (pending, place))
      (hends : place.ends = true) :
      Moves (.chain bodyFirst) { s with blockQueue, stopped, chaining := none }
  | chainGoes {bodyFirst : Bool} {pending : Pending} {place place' : Chaining}
      (hat : s.chaining = some (pending, place))
      (hgoes : place.Goes c blockchain s pending place') :
      Moves (.chain bodyFirst) { s with chaining := some (pending, place') }
  | chainWrites {bodyFirst : Bool} {pending : Pending} {place place' : Chaining} {write : Write}
      (hwritten : s.written c blockchain options (.chain bodyFirst) = some write)
      (hat : s.chaining = some (pending, place)) (hwrites : place.Writes pending write place') :
      Moves (.chain bodyFirst)
        { s with store := write.apply s.store, chaining := some (pending, place') }
  | catchUp {bestHeight : Nat} (hnone : s.catchUp = none) :
      Moves (.catchUp bestHeight) { s with catchUp := some (.readHeight bestHeight) }
  | catchUpGoes {event : Event} {place : CatchUp} {next : Option CatchUp}
      (hevent : event.catchesUp = true) (hat : s.catchUp = some place)
      (hgoes : place.Goes c blockchain s next) : Moves event { s with catchUp := next }
  | catchUpWrites {event : Event} {place : CatchUp} {next : Option CatchUp} {write : Write}
      (hevent : event.catchesUp = true)
      (hwritten : s.written c blockchain options event = some write)
      (hat : s.catchUp = some place) (hwrites : place.Writes c write next) :
      Moves event { s with store := write.apply s.store, catchUp := next }

variable {c blockchain options s}

theorem step_of_ready (hready : s.isReady = true) (event : Event) :
    s.step c blockchain options event =
      { (s.advance c blockchain options event).2 with
        store := land (s.advance c blockchain options event).2.store
          (s.advance c blockchain options event).1 } := by
  unfold step
  rw [hready]

theorem written_of_ready (hready : s.isReady = true) (event : Event) :
    s.written c blockchain options event = (s.advance c blockchain options event).1 := by
  rw [written, if_pos hready]

/-- An event without a write. -/
theorem step_of_advance_none {event : Event} {s' : Synchronizer} (hready : s.isReady = true)
    (h : s.advance c blockchain options event = (none, s')) :
    s.step c blockchain options event = s' := by
  rw [step_of_ready hready, h]
  rfl

/-- An event with a write. -/
theorem step_of_advance_some {event : Event} {s' : Synchronizer} {write : Write}
    (hready : s.isReady = true) (h : s.advance c blockchain options event = (some write, s')) :
    s.step c blockchain options event = { s' with store := write.apply s'.store } ∧
      s.written c blockchain options event = some write := by
  rw [step_of_ready hready, written_of_ready hready, h]
  exact ⟨rfl, rfl⟩

/-- What lets `chainPendingBlock` go on does. -/
theorem advance_chain_cases (bodyFirst : Bool) :
    s.advance c blockchain options (.chain bodyFirst) = (none, s) ∨
    (∃ pending place place', s.chaining = some (pending, place) ∧
      place.Goes c blockchain s pending place' ∧
      s.advance c blockchain options (.chain bodyFirst) =
        (none, { s with chaining := some (pending, place') })) ∨
    (∃ pending place write place', s.chaining = some (pending, place) ∧
      place.Writes pending write place' ∧
      s.advance c blockchain options (.chain bodyFirst) =
        (some write, { s with chaining := some (pending, place') })) ∨
    ∃ pending place blockQueue stopped, s.chaining = some (pending, place) ∧ place.ends = true ∧
      s.advance c blockchain options (.chain bodyFirst) =
        (none, { s with blockQueue, stopped, chaining := none }) := by
  cases hat : s.chaining with
  | none => exact .inl (by simp only [advance, hat])
  | some entry =>
      rcases entry with ⟨pending, place⟩
      by_cases hlocked : place.locks = true ∧ s.catchUpWrites = true
      -- the lock is not free yet
      · exact .inl (by simp only [advance, hat, if_pos hlocked])
      · rcases Chaining.next_cases c blockchain s pending bodyFirst hlocked with
          ⟨place', hnext, hgoes⟩ | ⟨write, place', hnext, hwrites⟩ | ⟨hends, next, hnext, hnot⟩
        · refine .inr (.inl ⟨pending, place, place', rfl, hgoes, ?_⟩)
          simp only [advance, hat, if_neg hlocked, hnext]
        · refine .inr (.inr (.inl ⟨pending, place, write, place', rfl, hwrites, ?_⟩))
          simp only [advance, hat, if_neg hlocked, hnext]
        · -- a turn ends, and the block may go back to the queue or stop the loop
          cases next with
          | await place' => exact absurd rfl (hnot place')
          | finished =>
              refine .inr (.inr (.inr ⟨pending, place, s.blockQueue, s.stopped, rfl, hends, ?_⟩))
              simp only [advance, hat, if_neg hlocked, hnext]
          | reEnqueue =>
              refine .inr (.inr (.inr ⟨pending, place, s.blockQueue ++ [pending], s.stopped, rfl,
                hends, ?_⟩))
              simp only [advance, hat, if_neg hlocked, hnext]
          | failed =>
              refine .inr (.inr (.inr ⟨pending, place, s.blockQueue,
                s.stopped || !pending.fromRemote, rfl, hends, ?_⟩))
              simp only [advance, hat, if_neg hlocked, hnext]

theorem chain_moves (hready : s.isReady = true) (bodyFirst : Bool) :
    s.Moves c blockchain options (.chain bodyFirst)
      (s.step c blockchain options (.chain bodyFirst)) := by
  rcases advance_chain_cases bodyFirst with hadvance | ⟨pending, place, place', hat, hgoes, hadvance⟩ |
    ⟨pending, place, write, place', hat, hwrites, hadvance⟩ |
    ⟨pending, place, blockQueue, stopped, hat, hends, hadvance⟩
  · rw [step_of_advance_none hready hadvance]
    exact .stay
  · rw [step_of_advance_none hready hadvance]
    exact .chainGoes hat hgoes
  · rcases step_of_advance_some hready hadvance with ⟨hstep, hwritten⟩
    rw [hstep]
    exact .chainWrites hwritten hat hwrites
  · rw [step_of_advance_none hready hadvance]
    exact .chainEnds hat hends

/-- A write that chaining makes is one that it was at. -/
theorem written_chain {bodyFirst : Bool} {write : Write}
    (hwritten : s.written c blockchain options (.chain bodyFirst) = some write) :
    ∃ pending place place', s.chaining = some (pending, place) ∧
      place.Writes pending write place' := by
  unfold written at hwritten
  split at hwritten
  · rcases @advance_chain_cases c blockchain options s bodyFirst with
      hadvance | ⟨_, _, _, _, _, hadvance⟩ |
      ⟨pending, place, write', place', hat, hwrites, hadvance⟩ | ⟨_, _, _, _, _, _, hadvance⟩
    · rw [hadvance] at hwritten
      cases hwritten
    · rw [hadvance] at hwritten
      cases hwritten
    · rw [hadvance] at hwritten
      cases hwritten
      exact ⟨pending, place, place', hat, hwrites⟩
    · rw [hadvance] at hwritten
      cases hwritten
  · cases hwritten

/-- Besides catching up, only chaining and the consensus engine write. -/
theorem written_cases {event : Event} {write : Write}
    (hwritten : s.written c blockchain options event = some write)
    (hcatches : event.catchesUp = false) :
    (∃ bodyFirst, event = .chain bodyFirst) ∨
      ∃ root validatorSet, write = .validatorSet root validatorSet := by
  unfold written at hwritten
  split at hwritten
  -- of the events outside of the download only these two write
  · cases event with
    | chain bodyFirst => exact .inl ⟨bodyFirst, rfl⟩
    | setValidatorSet validatorSet =>
        simp only [advance] at hwritten
        split at hwritten
        · cases hwritten
          exact .inr ⟨_, _, rfl⟩
        · cases hwritten
    | catchUpNext reply => cases hcatches
    | startJob job => cases hcatches
    | jobNext i reply => cases hcatches
    | start => cases hwritten
    | enqueueBlock pending => cases hwritten
    | enqueueNewBlock pending =>
        simp only [advance] at hwritten
        split at hwritten
        · cases hwritten
        · cases hwritten
    | dequeue pending =>
        simp only [advance] at hwritten
        split at hwritten
        · cases hwritten
        · cases hwritten
    | catchUp bestHeight =>
        simp only [advance] at hwritten
        split at hwritten
        · cases hwritten
        · cases hwritten
  · cases hwritten

/-- `catchUpAsync` writes at an answer of the store, and so do its jobs. -/
theorem written_catchUp {event : Event} {write : Write}
    (hwritten : s.written c blockchain options event = some write)
    (hcatches : event.catchesUp = true) :
    (event = .catchUpNext .done ∧ ∃ place next, s.catchUp = some place ∧
      place.next c blockchain options s.store .done = some (some write, next)) ∨
    ∃ i place height body, event = .jobNext i .done ∧ s.catchUp = some place ∧
      place.body i = some (height, body) ∧ write = .body height body := by
  unfold written at hwritten
  split at hwritten
  · cases event with
    | catchUpNext reply =>
        simp only [advance] at hwritten
        split at hwritten
        · cases hwritten
        · rename_i place hat
          split at hwritten
          · cases hwritten
          · split at hwritten
            · rename_i next hnext
              cases hwritten
              rcases CatchUp.next_done hnext with rfl
              exact .inl ⟨rfl, place, next, hat, hnext⟩
            · cases hwritten
    | startJob job =>
        simp only [advance] at hwritten
        repeat' split at hwritten
        all_goals cases hwritten
    | jobNext i reply =>
        simp only [advance] at hwritten
        split at hwritten
        · rename_i consented jobQueue inProgress hat
          split at hwritten
          · rename_i job step hget
            -- the job writes at one of its places only
            have hbody : ∀ {write' next}, step.next c s.store job reply = some (write', next) →
                write' = some write → reply = .done ∧ ∃ bodies n body, step = .setBody bodies n body ∧
                  write = .body (job.first + n) body := by
              rintro write' next hnext rfl
              exact JobStep.next_written hnext
            have hfound : reply = .done ∧ ∃ bodies n body, step = .setBody bodies n body ∧
                write = .body (job.first + n) body := by
              split at hwritten
              · exact hbody ‹_› hwritten
              · exact hbody ‹_› hwritten
              · exact hbody ‹_› hwritten
              · cases hwritten
            rcases hfound with ⟨rfl, bodies, n, body, rfl, rfl⟩
            exact .inr ⟨i, _, _, body, rfl, hat, by simp only [CatchUp.body, hget], rfl⟩
          · cases hwritten
        · cases hwritten
    | _ => cases hcatches
  · cases hwritten

theorem written_header (hready : s.isReady = true) {place : CatchUp} (hat : s.catchUp = some place)
    {header : BlockHeader} (hheader : place.header = some header) :
    s.written c blockchain options (.catchUpNext .done) = some (.header header.height header) := by
  rw [written_of_ready hready]
  cases place with
  | setLastHeader consented =>
      cases hheader
      simp [advance, hat, CatchUp.next, CatchUp.locks, ConsentedHeader.height]
  | setHeader consented header' rest =>
      cases hheader
      simp [advance, hat, CatchUp.next, CatchUp.locks]
  | _ => cases hheader

theorem written_body (hready : s.isReady = true) {place : CatchUp} (hat : s.catchUp = some place)
    {i height : Nat} {body : BlockBody} (hbody : place.body i = some (height, body)) :
    s.written c blockchain options (.jobNext i .done) = some (.body height body) := by
  rw [written_of_ready hready]
  cases place with
  | fetchLoop consented jobQueue inProgress =>
      simp only [CatchUp.body] at hbody
      split at hbody
      · rename_i job bodies n body' hget
        cases hbody
        by_cases hmore : n + 1 < job.count
        · simp only [advance, hat, hget, JobStep.next, if_pos hmore]
        · simp only [advance, hat, hget, JobStep.next, if_neg hmore]
      · cases hbody
  | _ => cases hbody

/-- The store changes by the write that lands. -/
theorem store_step {event : Event} (hstart : event ≠ .start) :
    (s.step c blockchain options event).store =
      land s.store (s.written c blockchain options event) := by
  cases hready : s.isReady with
  | false =>
      have hstep : s.step c blockchain options event = s := by
        unfold step
        rw [hready]
        cases event with
        | start => exact absurd rfl hstart
        | _ => rfl
      have hnone : s.written c blockchain options event = none := by
        simp [written, hready]
      rw [hstep, hnone]
      rfl
  | true =>
      rw [step_of_ready hready, written_of_ready hready]
      -- nothing but the write that is returned touches the store
      suffices hstore : (s.advance c blockchain options event).2.store = s.store by
        simp only [hstore]
      cases event with
      | start => exact absurd rfl hstart
      | chain bodyFirst =>
          rcases @advance_chain_cases c blockchain options s bodyFirst with
            hadvance | ⟨_, _, _, _, _, hadvance⟩ | ⟨_, _, _, _, _, _, hadvance⟩ |
            ⟨_, _, _, _, _, _, hadvance⟩
          all_goals rw [hadvance]
      | _ =>
          simp only [advance]
          repeat' split
          all_goals rfl

theorem catchUpNext_moves (hready : s.isReady = true) (reply : Reply) :
    s.Moves c blockchain options (.catchUpNext reply)
      (s.step c blockchain options (.catchUpNext reply)) := by
  cases hat : s.catchUp with
  | none =>
      have hadvance : s.advance c blockchain options (.catchUpNext reply) = (none, s) := by
        simp only [advance, hat]
      rw [step_of_advance_none hready hadvance]
      exact .stay
  | some place =>
      by_cases hlocked : place.locks = true ∧ (s.chainingReads = true ∨ s.chainingWrites = true)
      · -- the lock is not free, and the synchronization waits for it
        have hadvance : s.advance c blockchain options (.catchUpNext reply) = (none, s) := by
          simp only [advance, hat, if_pos hlocked]
        rw [step_of_advance_none hready hadvance]
        exact .stay
      · cases hnext : place.next c blockchain options s.store reply with
        | none =>
            have hadvance : s.advance c blockchain options (.catchUpNext reply) = (none, s) := by
              simp only [advance, hat, if_neg hlocked, hnext]
            rw [step_of_advance_none hready hadvance]
            exact .stay
        | some result =>
            rcases result with ⟨write, next⟩
            have hadvance : s.advance c blockchain options (.catchUpNext reply) =
                (write, { s with catchUp := next }) := by
              simp only [advance, hat, if_neg hlocked, hnext]
            -- a place goes on without a write, or to the next one by a write
            rcases CatchUp.next_cases c blockchain s hlocked hnext with
              ⟨rfl, hgoes⟩ | ⟨written, rfl, hwrites⟩
            · rw [step_of_advance_none hready hadvance]
              exact .catchUpGoes rfl hat hgoes
            · rcases step_of_advance_some hready hadvance with ⟨hstep, hwritten⟩
              rw [hstep]
              exact .catchUpWrites rfl hwritten hat hwrites

theorem startJob_moves (hready : s.isReady = true) (job : Job) :
    s.Moves c blockchain options (.startJob job) (s.step c blockchain options (.startJob job)) := by
  have hstay : s.advance c blockchain options (.startJob job) = (none, s) →
      s.Moves c blockchain options (.startJob job)
        (s.step c blockchain options (.startJob job)) := by
    intro hadvance
    rw [step_of_advance_none hready hadvance]
    exact .stay
  by_cases hloop : ∃ consented jobQueue inProgress,
      s.catchUp = some (.fetchLoop consented jobQueue inProgress)
  · rcases hloop with ⟨consented, jobQueue, inProgress, hat⟩
    by_cases hjob : job ∈ jobQueue ∧ ∀ other ∈ jobQueue, job.last ≤ other.last
    · have hadvance : s.advance c blockchain options (.startJob job) =
          (none, { s with
            catchUp := some (.fetchLoop consented (jobQueue.erase job)
              (inProgress ++ [(job, .fetchBodies)])) }) := by
        simp only [advance, hat, if_pos hjob]
      rw [step_of_advance_none hready hadvance]
      exact .catchUpGoes rfl hat .job
    · exact hstay (by simp only [advance, hat, if_neg hjob])
  · refine hstay ?_
    simp only [advance]
    split
    · rename_i consented jobQueue inProgress hat
      exact absurd ⟨consented, jobQueue, inProgress, hat⟩ hloop
    · rfl

theorem jobNext_moves (hready : s.isReady = true) (i : Nat) (reply : Reply) :
    s.Moves c blockchain options (.jobNext i reply)
      (s.step c blockchain options (.jobNext i reply)) := by
  have hstay : s.advance c blockchain options (.jobNext i reply) = (none, s) →
      s.Moves c blockchain options (.jobNext i reply)
        (s.step c blockchain options (.jobNext i reply)) := by
    intro hadvance
    rw [step_of_advance_none hready hadvance]
    exact .stay
  by_cases hloop : ∃ consented jobQueue inProgress,
      s.catchUp = some (.fetchLoop consented jobQueue inProgress)
  · rcases hloop with ⟨consented, jobQueue, inProgress, hat⟩
    cases hget : inProgress[i]? with
    | none => exact hstay (by simp only [advance, hat, hget])
    | some entry =>
        rcases entry with ⟨job, step⟩
        cases hnext : step.next c s.store job reply with
        | none => exact hstay (by simp only [advance, hat, hget, hnext])
        | some result =>
            rcases result with ⟨write, next⟩
            -- the queue changes only where the job has failed
            have hadvance : ∃ jobQueue' inProgress', (next ≠ none → jobQueue' = jobQueue) ∧
                s.advance c blockchain options (.jobNext i reply) = (write, { s with
                  catchUp := some (.fetchLoop consented jobQueue' inProgress') }) := by
              rcases next with _ | _ | step'
              · refine ⟨jobQueue ++ [job], inProgress.eraseIdx i, fun hne => absurd rfl hne, ?_⟩
                simp only [advance, hat, hget, hnext]
              · refine ⟨jobQueue, inProgress.eraseIdx i, fun _ => rfl, ?_⟩
                simp only [advance, hat, hget, hnext]
              · refine ⟨jobQueue, inProgress.set i (job, step'), fun _ => rfl, ?_⟩
                simp only [advance, hat, hget, hnext]
            rcases hadvance with ⟨jobQueue', inProgress', hqueue, hadvance⟩
            rcases JobStep.next_cases c s hnext with rfl | ⟨hne, height, body, rfl⟩
            · rw [step_of_advance_none hready hadvance]
              exact .catchUpGoes rfl hat .job
            · rcases step_of_advance_some hready hadvance with ⟨hstep, hwritten⟩
              rw [hstep, hqueue hne]
              exact .catchUpWrites rfl hwritten hat .body
  · refine hstay ?_
    simp only [advance]
    split
    · rename_i consented jobQueue inProgress hat
      exact absurd ⟨consented, jobQueue, inProgress, hat⟩ hloop
    · rfl

/-- Every event of a node that is ready is one of the moves. -/
theorem step_moves (hready : s.isReady = true) (event : Event) :
    s.Moves c blockchain options event (s.step c blockchain options event) := by
  cases event with
  | start =>
      rw [step_of_advance_none (c := c) hready rfl]
      exact .start
  | enqueueNewBlock pending =>
      rw [step_of_ready hready, advance]
      simp only
      split
      · exact .stay
      · exact .queue
  | enqueueBlock pending =>
      rw [step_of_advance_none (c := c) hready rfl]
      exact .queue
  | setValidatorSet validatorSet =>
      rw [step_of_ready hready, advance]
      cases hroot : validatorSet.hash c with
      | ok root => exact .validatorSet hroot
      | error e => exact .stay
  | dequeue pending =>
      rw [step_of_ready hready, advance]
      split
      · rename_i hqueued
        exact .dequeue (Option.isNone_iff_eq_none.mp hqueued.1)
      · exact .stay
  | chain bodyFirst => exact chain_moves hready bodyFirst
  | catchUp bestHeight =>
      rw [step_of_ready hready, advance]
      cases hat : s.catchUp with
      | none => exact .catchUp hat
      | some place => exact .stay
  | catchUpNext reply => exact catchUpNext_moves hready reply
  | startJob job => exact startJob_moves hready job
  | jobNext i reply => exact jobNext_moves hready i reply

/-- The store that `ready` starts from, with the genesis block where there is no chain yet. -/
def rootedStore (blockchain : Blockchain) (store : BlockStore) : BlockStore :=
  if store.height = 0 then
    (({ store with cachedHeight := 0 } : BlockStore).setHeader 1
      blockchain.genesisBlock.header).setBody 1 blockchain.genesisBlock.body
  else { store with cachedHeight := 0 }

/-- What a node finds when it has started. -/
theorem start_cases (store : BlockStore) : ∃ isReady store',
    start c blockchain store = new isReady store' ∧
      (store' = rootedStore blockchain store ∨
        ∃ root, blockchain.initialValidatorSet.hash c = .ok root ∧
          store' = (rootedStore blockchain store).putValidatorSet root
            blockchain.initialValidatorSet) := by
  -- what `ready` does once the genesis block is there
  let rest : Action BlockStore Unit := do
    let root ← Action.fromResult (blockchain.initialValidatorSet.hash c)
    modify fun store => store.putValidatorSet root blockchain.initialValidatorSet
    let storedGenesis ← Action.fromResult ((← get).getHeader 1)
    if storedGenesis.hash c ≠ blockchain.genesisHash c then
      throw ⟨"Stored genesis block is invalid. You need to reset store."⟩
  have hready : blockchain.ready c { store with cachedHeight := 0 } =
      rest (rootedStore blockchain store) := by
    unfold rootedStore
    by_cases hheight : store.height = 0
    · rw [if_pos hheight]
      have hget : ({ store with cachedHeight := 0 } : BlockStore).getHeight = 0 := hheight
      rw [Blockchain.ready, Fallible.get_bind, if_pos hget]
      rfl
    · rw [if_neg hheight]
      have hget : ¬ ({ store with cachedHeight := 0 } : BlockStore).getHeight = 0 := hheight
      rw [Blockchain.ready, Fallible.get_bind, if_neg hget]
  -- however `rest` ends, at most the validator set has been written
  let P : BlockStore → Prop := fun store' => store' = rootedStore blockchain store ∨
    ∃ root, blockchain.initialValidatorSet.hash c = .ok root ∧
      store' = (rootedStore blockchain store).putValidatorSet root blockchain.initialValidatorSet
  have hrest : Fallible.Ends rest (rootedStore blockchain store) (fun _ => P) P := by
    rw [Fallible.ends_bind]
    refine Action.ends_fromResult ?_ fun _ _ => .inl rfl
    intro root hroot
    have hput : P ((rootedStore blockchain store).putValidatorSet root
        blockchain.initialValidatorSet) := .inr ⟨root, hroot, rfl⟩
    rw [Fallible.ends_bind, Fallible.ends_modify, Fallible.ends_bind, Fallible.ends_get,
      Fallible.ends_bind]
    refine Action.ends_fromResult ?_ fun _ _ => hput
    intro storedGenesis _
    split
    · exact hput
    · exact hput
  have hfinal := hrest.final
  rw [start, hready]
  cases hresult : rest (rootedStore blockchain store) with
  | ok _ store' =>
      rw [hresult] at hfinal
      exact ⟨true, store', rfl, hfinal⟩
  | error _ store' =>
      rw [hresult] at hfinal
      exact ⟨false, store', rfl, hfinal⟩

end Moves

end Synchronizer

end ChainCore
end UniqysKit
