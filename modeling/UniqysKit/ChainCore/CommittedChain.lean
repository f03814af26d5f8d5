import UniqysKit.ChainCore.SynchronizerSteps

/-!
# What is stored at or below the height of the chain

The write lock keeps `chainPendingBlock` and the end of `catchUpAsync` apart, so a block is chained
at the height above the stored one and nowhere else (`Locked`).  What `catchUpHeaders` and
`catchUpBodies` write is not under the lock and not checked against the height: `keeps_committed_iff`
says exactly which of their writes the committed chain survives.
-/

namespace UniqysKit
namespace ChainCore

open Library

/-! ## Under the write lock -/

/-- What is known of the stored height where `updateHeight` is. -/
def Update.At (store : BlockStore) (height : Nat) : Update → Prop
  | .setHeight => store.height < height
  | .cacheHeight => store.height = height ∧ 0 < height
  | _ => True

/-- What is known of the stored height where `chainPendingBlock` is. -/
def Chaining.At (store : BlockStore) (height : Nat) : Chaining → Prop
  | .setHeaderAndBody => height = store.height + 1
  | .setBody => height = store.height + 1
  | .setHeader => height = store.height + 1
  | .update .readHeight => height = store.height + 1
  | .update .setHeight => height = store.height + 1
  | .update .cacheHeight => store.height = height ∧ 0 < height
  | _ => True

def Chaining.caches : Chaining → Bool
  | .update .cacheHeight => true
  | _ => false

def CatchUp.caches : CatchUp → Bool
  | .update _ .cacheHeight => true
  | _ => false

/-- What is known of the stored height where `catchUpAsync` is. -/
def CatchUp.At (store : BlockStore) : CatchUp → Prop
  | .update consented stage => stage.At store consented.height
  | _ => True

theorem Chaining.at_of_not_writes {store : BlockStore} {height : Nat} {place : Chaining}
    (h : place.writes = false) : place.At store height := by
  cases place with
  | update stage => cases h
  | setHeaderAndBody => cases h
  | setBody => cases h
  | setHeader => cases h
  | recheckHeight => trivial
  | readHeight => trivial
  | takeReadLock => trivial
  | getHeader => trivial
  | getValidatorSet root => trivial
  | takeWriteLock => trivial
  | propagateBlock => trivial

theorem CatchUp.at_of_not_writes {store : BlockStore} {place : CatchUp} (h : place.writes = false) :
    place.At store := by
  cases place with
  | update consented stage => cases h
  | _ => trivial

theorem Chaining.writes_of_caches {place : Chaining} (h : place.caches = true) :
    place.writes = true := by
  cases place with
  | update stage => rfl
  | _ => cases h

theorem CatchUp.writes_of_caches {place : CatchUp} (h : place.caches = true) :
    place.writes = true := by
  cases place with
  | update consented stage => rfl
  | _ => cases h

theorem Chaining.Goes.not_caches {c : Crypto} {blockchain : Blockchain} {s : Synchronizer}
    {pending : Pending} {place place' : Chaining}
    (hgoes : place.Goes c blockchain s pending place') : place.caches = false := by
  cases hgoes <;> rfl

theorem CatchUp.Goes.not_caches {c : Crypto} {blockchain : Blockchain} {s : Synchronizer}
    {place : CatchUp} {next : Option CatchUp} (hgoes : place.Goes c blockchain s next) :
    place.caches = false := by
  cases hgoes <;> rfl

/-- The places only speak of the stored height. -/
theorem Chaining.At.congr {store store' : BlockStore} {height : Nat} {place : Chaining}
    (h : place.At store height) (hheight : store'.height = store.height) :
    place.At store' height := by
  cases place with
  | update stage => cases stage with
    | readHeight => exact (h : _ = _).trans (by rw [hheight])
    | setHeight => exact (h : _ = _).trans (by rw [hheight])
    | cacheHeight => exact ⟨hheight.trans h.1, h.2⟩
    | setLastConsensus => trivial
  | setHeaderAndBody => exact (h : _ = _).trans (by rw [hheight])
  | setBody => exact (h : _ = _).trans (by rw [hheight])
  | setHeader => exact (h : _ = _).trans (by rw [hheight])
  | _ => trivial

theorem CatchUp.At.congr {store store' : BlockStore} {place : CatchUp} (h : place.At store)
    (hheight : store'.height = store.height) : place.At store' := by
  cases place with
  | update consented stage => cases stage with
    | setHeight =>
        change store'.height < consented.height
        rw [hheight]
        exact h
    | cacheHeight => exact ⟨hheight.trans h.1, h.2⟩
    | readHeight => trivial
    | setLastConsensus => trivial
  | _ => trivial

namespace Synchronizer

/-- What the write lock ensures: one at a time, each finds the height as it has left it, and the
cache is behind only where someone is about to set it. -/
structure Locked (s : Synchronizer) : Prop where
  exclusive : ∀ entry ∈ s.chaining, ∀ place ∈ s.catchUp, entry.2.writes = true →
    place.writes = false
  chaining : ∀ entry ∈ s.chaining, entry.2.At s.store entry.1.height
  catchUp : ∀ place ∈ s.catchUp, place.At s.store
  settled : (∀ entry ∈ s.chaining, entry.2.caches = false) →
    (∀ place ∈ s.catchUp, place.caches = false) → s.store.getHeight = s.store.height
  le : s.store.getHeight ≤ s.store.height

section Steps

variable {c : Crypto} {blockchain : Blockchain} {options : SynchronizerOptions} {s : Synchronizer}

/-- Under the lock, and before it is changed, the height is what it seems to be. -/
theorem Locked.getHeight_of_chaining (hlocked : s.Locked) {pending : Pending} {place : Chaining}
    (hat : s.chaining = some (pending, place)) (hwrites : place.writes = true)
    (hcaches : place.caches = false) : s.store.getHeight = s.store.height := by
  refine hlocked.settled ?_ ?_
  · rintro entry hentry
    obtain rfl := Option.mem_unique hentry hat
    exact hcaches
  · intro place' hplace
    have hnot := hlocked.exclusive _ hat place' hplace hwrites
    by_contra hcaching
    rw [Bool.not_eq_false] at hcaching
    rw [CatchUp.writes_of_caches hcaching] at hnot
    cases hnot

theorem Locked.getHeight_of_catchUp (hlocked : s.Locked) {place : CatchUp}
    (hat : s.catchUp = some place) (hwrites : place.writes = true)
    (hcaches : place.caches = false) : s.store.getHeight = s.store.height := by
  refine hlocked.settled ?_ ?_
  · intro entry hentry
    by_contra hcaching
    rw [Bool.not_eq_false] at hcaching
    have hnot := hlocked.exclusive entry hentry place hat (Chaining.writes_of_caches hcaching)
    rw [hwrites] at hnot
    cases hnot
  · intro place' hplace
    obtain rfl := Option.mem_unique hplace hat
    exact hcaches

/-- `chainPendingBlock` is at another place, and the heights are what they were. -/
theorem Locked.setChaining (hlocked : s.Locked) {chaining : Option (Pending × Chaining)}
    {store : BlockStore} {blockQueue : List Pending} {stopped : Bool}
    (hheight : store.height = s.store.height) (hcached : store.cachedHeight = s.store.cachedHeight)
    (hold : ∀ entry ∈ s.chaining, entry.2.caches = false)
    (hnew : ∀ entry ∈ chaining, entry.2.At store entry.1.height ∧
      (entry.2.writes = true → ∀ place ∈ s.catchUp, place.writes = false)) :
    ({ s with chaining, store, blockQueue, stopped } : Synchronizer).Locked := by
  have hget : store.getHeight = s.store.getHeight := by
    unfold BlockStore.getHeight
    rw [hheight, hcached]
  refine ⟨?_, ?_, ?_, ?_, ?_⟩
  · intro entry hentry place hplace hwrites
    exact (hnew entry hentry).2 hwrites place hplace
  · intro entry hentry
    exact (hnew entry hentry).1
  · intro place hplace
    exact (hlocked.catchUp place hplace).congr hheight
  · intro _ hcatchUp
    change store.getHeight = store.height
    rw [hget, hheight]
    exact hlocked.settled hold hcatchUp
  · change store.getHeight ≤ store.height
    rw [hget, hheight]
    exact hlocked.le

/-- `catchUpAsync` is at another place, and the heights are what they were. -/
theorem Locked.setCatchUp (hlocked : s.Locked) {catchUp : Option CatchUp} {store : BlockStore}
    (hheight : store.height = s.store.height) (hcached : store.cachedHeight = s.store.cachedHeight)
    (hold : ∀ place ∈ s.catchUp, place.caches = false)
    (hnew : ∀ place ∈ catchUp, place.At store ∧
      (place.writes = true → ∀ entry ∈ s.chaining, entry.2.writes = false)) :
    ({ s with catchUp, store } : Synchronizer).Locked := by
  have hget : store.getHeight = s.store.getHeight := by
    unfold BlockStore.getHeight
    rw [hheight, hcached]
  -- both heights stay, the one that is stored and the one that is cached
  refine ⟨?_, ?_, ?_, ?_, ?_⟩
  · intro entry hentry place hplace hwrites
    by_contra hboth
    rw [Bool.not_eq_false] at hboth
    rw [(hnew place hplace).2 hboth entry hentry] at hwrites
    cases hwrites
  · intro entry hentry
    exact (hlocked.chaining entry hentry).congr hheight
  · intro place hplace
    exact (hnew place hplace).1
  · intro hchaining _
    change store.getHeight = store.height
    rw [hget, hheight]
    exact hlocked.settled hchaining hold
  · change store.getHeight ≤ store.height
    rw [hget, hheight]
    exact hlocked.le

theorem Locked.chainGoes (hlocked : s.Locked) {pending : Pending} {place place' : Chaining}
    (hat : s.chaining = some (pending, place)) (hgoes : place.Goes c blockchain s pending place') :
    ({ s with chaining := some (pending, place') } : Synchronizer).Locked := by
  refine hlocked.setChaining rfl rfl ?_ ?_
  · intro entry hentry
    obtain rfl := Option.mem_unique hentry hat
    exact hgoes.not_caches
  · intro entry hentry
    obtain rfl := Option.mem_unique hentry rfl
    have hold := hlocked.exclusive _ hat
    have hbefore := hlocked.chaining _ hat
    cases hgoes with
    -- the lock is given when the synchronization does not write, which is what exclusion asks for
    | writeLock hfree =>
        refine ⟨trivial, ?_⟩
        intro _ place hplace
        have hnot : s.catchUp.any CatchUp.writes = false := hfree
        rw [hplace] at hnot
        exact hnot
    -- the height is read again under the lock, so it is that of the store
    | recheck hheight =>
        have hget := hlocked.getHeight_of_chaining hat rfl rfl
        rw [hget] at hheight
        exact ⟨hheight, fun _ place hplace => hold place hplace rfl⟩
    | higher hheight => exact ⟨hbefore, fun _ place hplace => hold place hplace rfl⟩
    | check _ _ => exact ⟨trivial, nofun⟩
    | readLock _ => exact ⟨trivial, nofun⟩
    | header _ => exact ⟨trivial, nofun⟩
    | validate _ _ => exact ⟨trivial, nofun⟩
    | late _ => exact ⟨trivial, nofun⟩
    | lower _ => exact ⟨trivial, nofun⟩

theorem Locked.chainWrites (hlocked : s.Locked) {pending : Pending} {place place' : Chaining}
    {write : Write} (hat : s.chaining = some (pending, place))
    (hwrites : place.Writes pending write place') :
    ({ s with store := write.apply s.store, chaining := some (pending, place') } :
      Synchronizer).Locked := by
  -- `catchUpAsync` does not hold the write lock here
  have hold : ∀ place' ∈ s.catchUp, place'.writes = false := by
    intro place' hplace
    refine hlocked.exclusive _ hat place' hplace ?_
    cases hwrites <;> rfl
  have hbefore := hlocked.chaining _ hat
  have hcaches : place.caches = false → ∀ entry ∈ s.chaining, entry.2.caches = false := by
    intro hnot entry hentry
    obtain rfl := Option.mem_unique hentry hat
    exact hnot
  cases hwrites with
  | headerFirst =>
      refine hlocked.setChaining rfl rfl (hcaches rfl) ?_
      rintro entry ⟨⟩
      exact ⟨hbefore, fun _ => hold⟩
  | bodyFirst =>
      refine hlocked.setChaining rfl rfl (hcaches rfl) ?_
      rintro entry ⟨⟩
      exact ⟨hbefore, fun _ => hold⟩
  | body =>
      refine hlocked.setChaining rfl rfl (hcaches rfl) ?_
      rintro entry ⟨⟩
      exact ⟨hbefore, fun _ => hold⟩
  | header =>
      refine hlocked.setChaining rfl rfl (hcaches rfl) ?_
      rintro entry ⟨⟩
      exact ⟨hbefore, fun _ => hold⟩
  | height =>
      have hheight : pending.height = s.store.height + 1 := hbefore
      -- the height is written before its cache, which the next place says
      have hget := hlocked.getHeight_of_chaining hat rfl rfl
      refine ⟨?_, ?_, ?_, ?_, ?_⟩
      · rintro entry ⟨⟩ place' hplace _
        exact hold place' hplace
      · rintro entry ⟨⟩
        exact ⟨rfl, hheight ▸ Nat.succ_pos _⟩
      · intro place' hplace
        exact CatchUp.at_of_not_writes (hold place' hplace)
      · intro hnot _
        exact absurd (hnot _ rfl) nofun
      · exact BlockStore.getHeight_setHeight_le (by omega)
  | cachedHeight =>
      have hstored : s.store.height = pending.height ∧ 0 < pending.height := hbefore
      -- height and cache agree again
      have hget : (s.store.cacheHeight pending.height).getHeight = pending.height :=
        BlockStore.getHeight_cacheHeight hstored.2
      refine ⟨?_, ?_, ?_, ?_, ?_⟩
      · rintro entry ⟨⟩ place' hplace _
        exact hold place' hplace
      · rintro entry ⟨⟩
        trivial
      · intro place' hplace
        exact (hlocked.catchUp place' hplace).congr rfl
      · intro _ _
        exact hget.trans hstored.1.symm
      · exact (hget.trans hstored.1.symm).le
  | lastConsensus =>
      refine hlocked.setChaining rfl rfl (hcaches rfl) ?_
      rintro entry ⟨⟩
      exact ⟨trivial, nofun⟩

theorem Locked.catchUpGoes (hlocked : s.Locked) {place : CatchUp} {next : Option CatchUp}
    (hat : s.catchUp = some place) (hgoes : place.Goes c blockchain s next) :
    ({ s with catchUp := next } : Synchronizer).Locked := by
  refine hlocked.setCatchUp rfl rfl ?_ ?_
  · intro place' hplace
    obtain rfl := Option.mem_unique hplace hat
    exact hgoes.not_caches
  · intro place' hplace
    cases hgoes with
    -- the lock is given when no block is being written, which is what exclusion asks for
    | writeLock hreads hwrites =>
        cases hplace
        refine ⟨trivial, ?_⟩
        intro _ entry hentry
        have hnot : s.chaining.any (fun entry => entry.2.writes) = false := hwrites
        rw [hentry] at hnot
        exact hnot
    | higher hheight =>
        cases hplace
        have hget := hlocked.getHeight_of_catchUp hat rfl rfl
        refine ⟨by rw [hget] at hheight; exact hheight, ?_⟩
        intro _ entry hentry
        -- it has had the lock since, so no block is being written
        by_contra hwrites
        rw [Bool.not_eq_false] at hwrites
        exact absurd (hlocked.exclusive entry hentry _ hat hwrites) nofun
    | headers =>
        rcases nextHeader_cases c hplace with rfl | ⟨header, rest, rfl, -⟩
        · exact ⟨trivial, nofun⟩
        · exact ⟨trivial, nofun⟩
    | known => cases hplace
    | refused => cases hplace
    | failed => cases hplace
    | lower => cases hplace
    | fetch => cases hplace; exact ⟨trivial, nofun⟩
    | consented _ => cases hplace; exact ⟨trivial, nofun⟩
    | bottom _ => cases hplace; exact ⟨trivial, nofun⟩
    | above _ => cases hplace; exact ⟨trivial, nofun⟩
    | split => cases hplace; exact ⟨trivial, nofun⟩
    | job => cases hplace; exact ⟨trivial, nofun⟩
    | loaded => cases hplace; exact ⟨trivial, nofun⟩

theorem Locked.catchUpWrites (hlocked : s.Locked) {place : CatchUp} {next : Option CatchUp}
    {write : Write} (hat : s.catchUp = some place) (hwrites : place.Writes c write next) :
    ({ s with store := write.apply s.store, catchUp := next } : Synchronizer).Locked := by
  have hcaches : place.caches = false → ∀ place' ∈ s.catchUp, place'.caches = false := by
    intro hnot place' hplace
    obtain rfl := Option.mem_unique hplace hat
    exact hnot
  -- `chainPendingBlock` does not hold the write lock where `catchUpAsync` has it
  have hold : place.writes = true → ∀ entry ∈ s.chaining, entry.2.writes = false := by
    intro hplace entry hentry
    by_contra hboth
    rw [Bool.not_eq_false] at hboth
    rw [hlocked.exclusive entry hentry place hat hboth] at hplace
    cases hplace
  have hbefore := hlocked.catchUp place hat
  cases hwrites with
  | last =>
      refine hlocked.setCatchUp rfl rfl (hcaches rfl) ?_
      rintro place' ⟨⟩
      exact ⟨trivial, nofun⟩
  | header =>
      refine hlocked.setCatchUp rfl rfl (hcaches rfl) ?_
      intro place' hplace
      rcases nextHeader_cases c hplace with rfl | ⟨header, rest, rfl, -⟩
      · exact ⟨trivial, nofun⟩
      · exact ⟨trivial, nofun⟩
  | body =>
      refine hlocked.setCatchUp rfl rfl (hcaches rfl) ?_
      rintro place' ⟨⟩
      exact ⟨trivial, nofun⟩
  | @height consented =>
      have hheight : s.store.height < consented.height := hbefore
      have hle := hlocked.le
      refine ⟨?_, ?_, ?_, ?_, ?_⟩
      · rintro entry hentry place' ⟨⟩ hboth
        rw [hold rfl entry hentry] at hboth
        cases hboth
      · intro entry hentry
        exact Chaining.at_of_not_writes (hold rfl entry hentry)
      · rintro place' ⟨⟩
        exact ⟨rfl, by omega⟩
      · intro _ hnot
        exact absurd (hnot _ rfl) nofun
      · exact BlockStore.getHeight_setHeight_le (by omega)
  | @cachedHeight consented =>
      have hstored : s.store.height = consented.height ∧ 0 < consented.height := hbefore
      -- height and cache agree again
      have hget : (s.store.cacheHeight consented.height).getHeight = consented.height :=
        BlockStore.getHeight_cacheHeight hstored.2
      refine ⟨?_, ?_, ?_, ?_, ?_⟩
      · rintro entry hentry place' ⟨⟩ hboth
        rw [hold rfl entry hentry] at hboth
        cases hboth
      · intro entry hentry
        exact (hlocked.chaining entry hentry).congr rfl
      · rintro place' ⟨⟩
        trivial
      · intro _ _
        exact hget.trans hstored.1.symm
      · exact (hget.trans hstored.1.symm).le
  | lastConsensus =>
      refine hlocked.setCatchUp rfl rfl (hcaches rfl) ?_
      rintro place' ⟨⟩

theorem locked_new {isReady : Bool} {store : BlockStore} (hcached : store.cachedHeight = 0) :
    (new isReady store).Locked := by
  have hget : store.getHeight = store.height := by
    unfold BlockStore.getHeight
    rw [if_pos hcached]
  exact ⟨nofun, nofun, nofun, fun _ _ => hget, hget.le⟩

theorem cachedHeight_rootedStore (store : BlockStore) :
    (rootedStore blockchain store).cachedHeight = 0 := by
  unfold rootedStore
  split
  · rfl
  · rfl

theorem locked_start (store : BlockStore) : (start c blockchain store).Locked := by
  rcases @start_cases c blockchain store with ⟨isReady, store', hstart, hstore⟩
  rw [hstart]
  refine locked_new ?_
  rcases hstore with rfl | ⟨root, -, rfl⟩
  · exact cachedHeight_rootedStore store
  · exact cachedHeight_rootedStore store

theorem Locked.step (hlocked : s.Locked) (event : Event) :
    (s.step c blockchain options event).Locked := by
  cases hready : s.isReady with
  | false =>
      unfold Synchronizer.step
      rw [hready]
      split
      · exact locked_start s.store
      · exact hlocked
      · rename_i heq
        cases heq
  | true =>
      have hmoves : s.Moves c blockchain options event (s.step c blockchain options event) :=
        step_moves hready event
      generalize s.step c blockchain options event = s' at hmoves ⊢
      cases hmoves with
      | stay => exact hlocked
      | start => exact locked_start s.store
      -- the block waits in the queue, and neither of the two writers moves
      | queue =>
          exact ⟨hlocked.exclusive, hlocked.chaining, hlocked.catchUp, hlocked.settled, hlocked.le⟩
      | validatorSet _ =>
          exact ⟨hlocked.exclusive, fun entry hentry => (hlocked.chaining entry hentry).congr rfl,
            fun place hplace => (hlocked.catchUp place hplace).congr rfl, hlocked.settled, hlocked.le⟩
      | dequeue hnone =>
          refine hlocked.setChaining rfl rfl (by simp [hnone]) ?_
          rintro entry ⟨⟩
          exact ⟨trivial, nofun⟩
      -- a height that is only cached is never left so: its place goes on by a write
      | @chainEnds _ _ pending place _ hat hends =>
          refine hlocked.setChaining rfl rfl ?_ nofun
          intro entry hentry
          obtain rfl := Option.mem_unique hentry hat
          cases place with
          | update stage => cases hends
          | _ => rfl
      | chainGoes hat hgoes => exact hlocked.chainGoes hat hgoes
      | chainWrites _ hat hwrites => exact hlocked.chainWrites hat hwrites
      | catchUp hnone =>
          refine hlocked.setCatchUp rfl rfl (by simp [hnone]) ?_
          rintro place ⟨⟩
          exact ⟨trivial, nofun⟩
      | catchUpGoes _ hat hgoes => exact hlocked.catchUpGoes hat hgoes
      | catchUpWrites _ _ hat hwrites => exact hlocked.catchUpWrites hat hwrites

end Steps

/-! ## The committed chain -/

/-- Nothing at or below the stored height is replaced by something else. -/
def KeepsCommitted (store store' : BlockStore) : Prop :=
  ∀ h ≤ store.height, (∀ header, store.header h = some header → store'.header h = some header) ∧
    ∀ body, store.body h = some body → store'.body h = some body

/-- A header or a body above the height, or where there was none, or one that is there already. -/
def Spares (store : BlockStore) : Write → Prop
  | .header h value => store.height < h ∨ store.header h = none ∨ store.header h = some value
  | .body h value => store.height < h ∨ store.body h = none ∨ store.body h = some value
  | _ => True

/-- The header or the body of an answer that `catchUpAsync`, or a job of it, stores next is above the
height, or there was none, or it is there already. -/
structure CatchUpSpares (s : Synchronizer) (event : Event) : Prop where
  header : s.isReady = true → event = .catchUpNext .done → ∀ place ∈ s.catchUp,
    ∀ header ∈ place.header, s.store.height < header.height ∨
      s.store.header header.height = none ∨ s.store.header header.height = some header
  body : s.isReady = true → ∀ i, event = .jobNext i .done → ∀ place ∈ s.catchUp,
    ∀ height body, place.body i = some (height, body) → s.store.height < height ∨
      s.store.body height = none ∨ s.store.body height = some body

section Committed

variable {c : Crypto} {blockchain : Blockchain} {options : SynchronizerOptions} {s : Synchronizer}

theorem keepsCommitted_apply_iff {store : BlockStore} {write : Write} :
    KeepsCommitted store (write.apply store) ↔ Spares store write := by
  cases write with
  | header h value =>
      constructor
      · intro hkeeps
        by_cases hle : h ≤ store.height
        · cases hold : store.header h with
          | none => exact .inr (.inl hold)
          | some old =>
              -- a stored header below the tip stays, so the written one is the same
              have hnew := (hkeeps h hle).1 old hold
              rw [Write.apply, BlockStore.header_setHeader] at hnew
              exact .inr (.inr (hold.trans hnew.symm))
        · exact .inl (Nat.not_le.mp hle)
      · rintro (habove | hnone | hsame) h' hle
        · refine ⟨fun header hheader => ?_, fun body hbody => hbody⟩
          rw [Write.apply, BlockStore.header_setHeader_of_ne (by omega)]
          exact hheader
        · refine ⟨fun header hheader => ?_, fun body hbody => hbody⟩
          rw [Write.apply, BlockStore.header_setHeader_of_ne]
          · exact hheader
          · rintro rfl
            rw [hnone] at hheader
            cases hheader
        · rw [Write.apply, BlockStore.setHeader_eq_self hsame]
          exact ⟨fun _ hheader => hheader, fun _ hbody => hbody⟩
  | body h value =>
      constructor
      · intro hkeeps
        by_cases hle : h ≤ store.height
        · cases hold : store.body h with
          | none => exact .inr (.inl hold)
          | some old =>
              -- the same for the body
              have hnew := (hkeeps h hle).2 old hold
              rw [Write.apply, BlockStore.body_setBody] at hnew
              exact .inr (.inr (hold.trans hnew.symm))
        · exact .inl (Nat.not_le.mp hle)
      · rintro (habove | hnone | hsame) h' hle
        · refine ⟨fun header hheader => hheader, fun body hbody => ?_⟩
          rw [Write.apply, BlockStore.body_setBody_of_ne (by omega)]
          exact hbody
        · refine ⟨fun header hheader => hheader, fun body hbody => ?_⟩
          rw [Write.apply, BlockStore.body_setBody_of_ne]
          · exact hbody
          · rintro rfl
            rw [hnone] at hbody
            cases hbody
        · rw [Write.apply, BlockStore.setBody_eq_self hsame]
          exact ⟨fun _ hheader => hheader, fun _ hbody => hbody⟩
  | height h => exact ⟨fun _ => trivial, fun _ _ _ => ⟨fun _ h => h, fun _ h => h⟩⟩
  | cachedHeight h => exact ⟨fun _ => trivial, fun _ _ _ => ⟨fun _ h => h, fun _ h => h⟩⟩
  | lastConsensus cert => exact ⟨fun _ => trivial, fun _ _ _ => ⟨fun _ h => h, fun _ h => h⟩⟩
  | validatorSet root value => exact ⟨fun _ => trivial, fun _ _ _ => ⟨fun _ h => h, fun _ h => h⟩⟩

/-- A start writes the genesis block only where there is no chain. -/
theorem keepsCommitted_start (store : BlockStore) :
    KeepsCommitted store (start c blockchain store).store := by
  have hrooted : KeepsCommitted store (rootedStore blockchain store) := by
    intro h hle
    unfold rootedStore
    split
    · have hne : h ≠ 1 := by omega
      refine ⟨fun header hheader => ?_, fun body hbody => ?_⟩
      · exact (BlockStore.header_setHeader_of_ne hne).trans hheader
      · exact (BlockStore.body_setBody_of_ne hne).trans hbody
    · exact ⟨fun _ hheader => hheader, fun _ hbody => hbody⟩
  rcases @start_cases c blockchain store with ⟨isReady, store', hstart, hstore⟩
  rw [hstart]
  rcases hstore with rfl | ⟨root, -, rfl⟩
  · exact hrooted
  · exact hrooted

/-- Under the lock, chaining writes above the height. -/
theorem Locked.spares_of_chaining (hlocked : s.Locked) {pending : Pending} {place place' : Chaining}
    {write : Write} (hat : s.chaining = some (pending, place))
    (hwrites : place.Writes pending write place') : Spares s.store write := by
  have hbefore := hlocked.chaining _ hat
  have habove : pending.height = s.store.height + 1 → s.store.height < pending.height := by omega
  cases hwrites with
  | headerFirst => exact .inl (habove hbefore)
  | bodyFirst => exact .inl (habove hbefore)
  | body => exact .inl (habove hbefore)
  | header => exact .inl (habove hbefore)
  | height => trivial
  | cachedHeight => trivial
  | lastConsensus => trivial

/-- What `catchUpAsync` and its jobs write spares the committed chain exactly if what they have got
does. -/
theorem catchUpSpares_iff (event : Event) :
    CatchUpSpares s event ↔ (event.catchesUp = true → ∀ write,
      s.written c blockchain options event = some write → Spares s.store write) := by
  constructor
  · intro hspares hcatches write hwritten
    have hready : s.isReady = true := by
      by_contra hnot
      rw [written, if_neg hnot] at hwritten
      cases hwritten
    rcases written_catchUp hwritten hcatches with
      ⟨rfl, place, next, hat, hnext⟩ | ⟨i, place, height, body, rfl, hat, hbody, rfl⟩
    · cases write with
      | header h header =>
          rcases CatchUp.next_header hnext with ⟨hheader, rfl⟩
          exact hspares.header hready rfl place hat header hheader
      | body h body => exact absurd hnext CatchUp.next_ne_body
      | _ => trivial
    · exact hspares.body hready i rfl place hat height body hbody
  · intro hspares
    refine ⟨?_, ?_⟩
    · rintro hready rfl place hat header hheader
      exact hspares rfl _ (written_header hready hat hheader)
    · rintro hready i rfl place hat height body hbody
      exact hspares rfl _ (written_body hready hat hbody)

/-- Chaining and validator sets are no danger, so all depends on the writes of catching up. -/
theorem Locked.keepsCommitted_step_iff (hlocked : s.Locked) (event : Event) :
    KeepsCommitted s.store (s.step c blockchain options event).store ↔ CatchUpSpares s event := by
  rw [@catchUpSpares_iff c blockchain options s event]
  by_cases hstart : event = .start
  · subst hstart
    refine ⟨fun _ => nofun, fun _ => ?_⟩
    -- a start is the same, whether the node was ready or not
    have hstep : s.step c blockchain options .start = start c blockchain s.store := by
      cases hready : s.isReady with
      | false => simp only [Synchronizer.step, hready, advance]
      | true => exact step_of_advance_none hready rfl
    rw [hstep]
    exact keepsCommitted_start s.store
  · rw [store_step hstart]
    cases hwritten : s.written c blockchain options event with
    | none =>
        refine ⟨fun _ _ write hwrite => ?_, fun _ _ _ => ⟨fun _ h => h, fun _ h => h⟩⟩
        cases hwrite
    | some write =>
        rw [land, keepsCommitted_apply_iff]
        refine ⟨fun hspares _ write' hwrite => ?_, fun hspares => ?_⟩
        · cases hwrite
          exact hspares
        · cases hcatches : event.catchesUp with
          | true => exact hspares hcatches write rfl
          | false =>
              -- what is written outside of the download keeps what was committed
              rcases written_cases hwritten hcatches with
                ⟨bodyFirst, rfl⟩ | ⟨root, validatorSet, rfl⟩
              · rcases written_chain hwritten with ⟨pending, place, place', hat, hwrites⟩
                exact hlocked.spares_of_chaining hat hwrites
              · trivial

/-- In every run of a node, nothing at or below the height of the chain is ever replaced exactly if
each header and body of an answer that the catch up goes on to store is above that height, or is
what is there already. -/
theorem keeps_committed_iff (c : Crypto) (blockchain : Blockchain) (options : SynchronizerOptions)
    (events : List Event) :
    Along (Synchronizer.step c blockchain options) init events (fun s event =>
        KeepsCommitted s.store (s.step c blockchain options event).store) ↔
      Along (Synchronizer.step c blockchain options) init events CatchUpSpares := by
  have hlocked : Throughout (Synchronizer.step c blockchain options) init events Locked :=
    throughout (locked_new rfl) (fun s event hs => hs.step event) events
  constructor
  · intro hkeeps
    exact hlocked.along hkeeps fun s event hs h => (hs.keepsCommitted_step_iff event).mp h
  · intro hspares
    exact hlocked.along hspares fun s event hs h => (hs.keepsCommitted_step_iff event).mpr h

end Committed

section Sample

def sampleChain : Blockchain := ⟨sampleGenesis, soleValidatorSet⟩

def sampleOptions : SynchronizerOptions := ⟨1000, 100, 50⟩

/-- A pending block is chained, from the queue to the end. -/
def chainEvents (pending : Pending) : List Event :=
  [.enqueueBlock pending, .dequeue pending] ++ List.replicate 13 (.chain false)

/-- The genesis block with its certificate. -/
def pendingGenesis : Pending :=
  ⟨sampleGenesis, sampleCertificate (Consensus.sampleKey 1) sampleGenesis.header, true⟩

/-- Another header of height 1. -/
def otherHeader : BlockHeader := { sampleGenesis.header with
  timestamp := 7
  timestamp_lt := BlockHeader.seven_lt }

/-- The answer of a remote node that has its own validator, and goes back to height 1. -/
def consentedOther : ConsentedHeader :=
  ⟨otherHeader, sampleCertificate (Consensus.sampleKey 9) otherHeader,
    ⟨[⟨(Consensus.sampleKey 9).address .transparent, 1⟩]⟩⟩

/-- The chain has height 1, and the catch up has got the answer. -/
def beforeOverwrite : Synchronizer :=
  Synchronizer.run .transparent sampleChain sampleOptions init
    ([.start] ++ chainEvents pendingGenesis ++
      [.catchUp 2, .catchUpNext .done, .catchUpNext (.consentedHeader consentedOther)])

/-- The header of the committed block is replaced. -/
theorem overwrites_committed :
    beforeOverwrite.store.height = 1 ∧
    beforeOverwrite.store.header 1 = some sampleGenesis.header ∧
    (beforeOverwrite.step .transparent sampleChain sampleOptions (.catchUpNext .done)).store.header 1 =
      some otherHeader ∧
    ¬ KeepsCommitted beforeOverwrite.store
      (beforeOverwrite.step .transparent sampleChain sampleOptions (.catchUpNext .done)).store := by
  have hheight : beforeOverwrite.store.height = 1 := by decide +kernel
  have hbefore : beforeOverwrite.store.header 1 = some sampleGenesis.header := by decide +kernel
  have hafter : (beforeOverwrite.step .transparent sampleChain sampleOptions
      (.catchUpNext .done)).store.header 1 = some otherHeader := by decide +kernel
  have hne : otherHeader ≠ sampleGenesis.header := by decide +kernel
  refine ⟨hheight, hbefore, hafter, ?_⟩
  intro hkeeps
  have hkept := (hkeeps 1 hheight.ge).1 _ hbefore
  rw [hafter] at hkept
  exact hne (Option.some.inj hkept)

end Sample

end Synchronizer

end ChainCore
end UniqysKit
