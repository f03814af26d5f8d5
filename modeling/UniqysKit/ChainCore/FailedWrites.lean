import UniqysKit.ChainCore.Synchronizer

/-!
# A write that fails

`updateHeight` writes the height and then the last consensus.  Nothing puts the two together again
where the second write is lost: the node goes on, or starts again, with the height of a block and the
consensus of another.

The code runs alone here, from one place to the next, until it ends or a write of the store fails.
`heightCertified_iff` says after which failures the last consensus still is the one of the block at
the height, for `updateHeight` and for the two that call it.
-/

namespace UniqysKit
namespace ChainCore

/-! ## Failures -/

/-- The keys of the block store. -/
inductive StoreKey
  | height
  | consensus
  | header
  | body
  | validatorSet
  deriving DecidableEq

/-- The key that is written in the store. The cache of the height is not. -/
def Write.key : Write → Option StoreKey
  | .height _ => some .height
  | .cachedHeight _ => none
  | .lastConsensus _ => some .consensus
  | .header _ _ => some .header
  | .body _ _ => some .body
  | .validatorSet _ _ => some .validatorSet

/-- What goes wrong with a write: its promise is rejected, or the process ends, before or after the
write has landed. -/
inductive Failure
  | rejected
  | crashed (landed : Bool)
  deriving DecidableEq

/-- The store as another process finds it. -/
def restarted (store : BlockStore) : BlockStore := { store with cachedHeight := 0 }

/-- The store after a write has failed. A write that was under way beside it still lands if the
process goes on. -/
def Failure.leaves (store : BlockStore) (write : Write) (other : Option Write) :
    Failure → BlockStore
  | .rejected => land store other
  | .crashed true => restarted (write.apply store)
  | .crashed false => restarted store

/-- The write of that key fails. -/
structure Fault where
  key : StoreKey
  failure : Failure
  deriving DecidableEq

/-- The code at a place goes on alone, until it ends or the write fails. `none` where the turns do not
suffice. -/
def runAlone {P : Type} (next : BlockStore → P → Option Write × Option P)
    (other : P → Option Write) (fault : Fault) : Nat → BlockStore → P → Option BlockStore
  | 0, _, _ => none
  | turns + 1, store, place =>
      match next store place with
      | (some write, following) =>
          -- the code does not catch the failure, so nothing more is written
          if write.key = some fault.key then
            some (fault.failure.leaves store write (other place))
          else
            match following with
            | some place => runAlone next other fault turns (write.apply store) place
            | none => some (write.apply store)
      | (none, some place) => runAlone next other fault turns store place
      | (none, none) => some store

def Update.following (height : Nat) (consensus : Consensus) (store : BlockStore) (place : Update) :
    Option Write × Option Update :=
  place.next store height consensus

/-- `updateHeight`. -/
def updateHeight (fault : Fault) (store : BlockStore) (height : Nat) (consensus : Consensus) :
    Option BlockStore :=
  runAlone (Update.following height consensus) (fun _ => none) fault 4 store .readHeight

section Runs

variable (c : Crypto) (blockchain : Blockchain) (options : SynchronizerOptions)

/-- Where `chainPendingBlock` goes on, if its turn does not end. -/
def Next.place : Next → Option Chaining
  | .await place => some place
  | _ => none

def Chaining.following (pending : Pending) (bodyFirst : Bool) (store : BlockStore) (place : Chaining) :
    Option Write × Option Chaining :=
  let (write, next) := place.next c blockchain store pending bodyFirst
  (write, next.place)

/-- The write of the `Promise.all` that is not waited for when the other one has failed. -/
def Chaining.beside (pending : Pending) (bodyFirst : Bool) : Chaining → Option Write
  | .setHeaderAndBody =>
      if bodyFirst then some (.header pending.height pending.block.header)
      else some (.body pending.height pending.block.body)
  | _ => none

/-- A turn of `chainPendingBlock`. -/
def chainPendingBlock (fault : Fault) (store : BlockStore) (pending : Pending) (bodyFirst : Bool) :
    Option BlockStore :=
  runAlone (Chaining.following c blockchain pending bodyFirst) (Chaining.beside pending bodyFirst)
    fault 13 store .readHeight

/-- The store and the lock do what they are asked for. -/
def CatchUp.following (store : BlockStore) (place : CatchUp) : Option Write × Option CatchUp :=
  (place.next c blockchain options store .done).getD (none, none)

/-- The end of `catchUpAsync`, when headers and bodies are there. -/
def endOfCatchUp (fault : Fault) (store : BlockStore) (consented : ConsentedHeader) :
    Option BlockStore :=
  runAlone (CatchUp.following c blockchain options) (fun _ => none) fault 6 store
    (.takeWriteLock consented)

end Runs

section RunAlone

variable {P Q : Type} {next : BlockStore → P → Option Write × Option P}
  {next' : BlockStore → Q → Option Write × Option Q} {other : P → Option Write}
  {other' : Q → Option Write} {fault : Fault} {turns : Nat} {store : BlockStore} {place place' : P}
  {write : Write}

theorem runAlone_goes (h : next store place = (none, some place')) :
    runAlone next other fault (turns + 1) store place = runAlone next other fault turns store place' := by
  rw [runAlone, h]

theorem runAlone_ends (h : next store place = (none, none)) :
    runAlone next other fault (turns + 1) store place = some store := by
  rw [runAlone, h]

theorem runAlone_writes (h : next store place = (some write, some place'))
    (hkey : write.key ≠ some fault.key) :
    runAlone next other fault (turns + 1) store place =
      runAlone next other fault turns (write.apply store) place' := by
  rw [runAlone, h]
  exact if_neg hkey

theorem runAlone_last (h : next store place = (some write, none)) (hkey : write.key ≠ some fault.key) :
    runAlone next other fault (turns + 1) store place = some (write.apply store) := by
  rw [runAlone, h]
  exact if_neg hkey

theorem runAlone_fails {following : Option P} (h : next store place = (some write, following))
    (hkey : write.key = some fault.key) :
    runAlone next other fault (turns + 1) store place =
      some (fault.failure.leaves store write (other place)) := by
  rw [runAlone, h]
  exact if_pos hkey

/-- Code that calls other code, and writes nothing more after it. -/
theorem runAlone_call {call : P → Q} {rest : Option Q}
    (hstep : ∀ store place, next' store (call place) =
      ((next store place).1, ((next store place).2.map call).or rest))
    (hother : ∀ place, other' (call place) = other place)
    (hrest : ∀ place, rest = some place → ∀ store, next' store place = (none, none))
    {result : BlockStore} (h : runAlone next other fault turns store place = some result) :
    runAlone next' other' fault (turns + 1) store (call place) = some result := by
  have hends : ∀ turns store place, rest = some place →
      runAlone next' other' fault (turns + 1) store place = some store :=
    fun turns store place hplace => runAlone_ends (hrest place hplace store)
  induction turns generalizing store place with
  | zero => cases h
  | succ turns ih =>
      rw [runAlone] at h ⊢
      rw [hstep]
      generalize next store place = step at h ⊢
      rcases step with ⟨write, following⟩
      cases write with
      | none =>
          -- the called code ends here, and what is left of the calling code writes nothing
          cases following with
          | some following => exact ih h
          | none =>
              cases rest with
              | none => exact h
              | some last => exact (hends turns store last rfl).trans h
      | some write =>
          simp only [hother] at h ⊢
          -- the write that fails ends both, any other one is done by both
          split
          · rename_i hkey
            rwa [if_pos hkey] at h
          · rename_i hkey
            rw [if_neg hkey] at h
            cases following with
            | some following => exact ih h
            | none =>
                cases rest with
                | none => exact h
                | some last => exact (hends turns _ last rfl).trans h

end RunAlone

/-! ## The height and the last consensus -/

/-- The last consensus votes for the block at the height, and the cache of the height is not behind. -/
structure HeightCertified (c : Crypto) (store : BlockStore) : Prop where
  cached : store.cachedHeight = 0 ∨ store.cachedHeight = store.height
  certified : 1 ≤ store.getHeight → ∃ consensus header, store.getLastConsensus = .ok consensus ∧
    store.getHeader store.getHeight = .ok header ∧ consensus.vote.blockHash = header.hash c

/-- The failure comes between the write of the height and that of the last consensus. -/
def Fault.between : Fault → Bool
  | ⟨.height, .crashed true⟩ => true
  | ⟨.consensus, .crashed true⟩ => false
  | ⟨.consensus, _⟩ => true
  | _ => false

/-- The height goes up, the consensus for its block is lost, and no such consensus is there. -/
def Stranded (c : Crypto) (fault : Fault) (store : BlockStore) (height : Nat) (header : BlockHeader) :
    Prop :=
  store.getHeight < height ∧ fault.between = true ∧
    ∀ consensus, store.getLastConsensus = .ok consensus → consensus.vote.blockHash ≠ header.hash c

section Certified

variable {c : Crypto} {store : BlockStore} {height : Nat} {header : BlockHeader}

/-- A cache that is empty or up to date does not matter. -/
theorem getHeight_of_cached (hcached : store.cachedHeight = 0 ∨ store.cachedHeight = store.height) :
    store.getHeight = store.height := by
  rw [BlockStore.getHeight]
  split
  · rfl
  · rename_i hne
    exact hcached.resolve_left hne

theorem HeightCertified.getHeight_eq (h : HeightCertified c store) : store.getHeight = store.height :=
  getHeight_of_cached h.cached

/-- A store with the header of its height. -/
theorem heightCertified_iff_vote (hcached : store.cachedHeight = 0 ∨ store.cachedHeight = store.height)
    (hheight : store.height = height) (hpos : 1 ≤ height) (hheader : store.header height = some header) :
    HeightCertified c store ↔ ∃ consensus, store.getLastConsensus = .ok consensus ∧
      consensus.vote.blockHash = header.hash c := by
  have hget : store.getHeight = height := (getHeight_of_cached hcached).trans hheight
  have hok : store.getHeader height = .ok header := BlockStore.getHeader_eq_ok.mpr hheader
  constructor
  · intro h
    rcases h.certified (by omega) with ⟨consensus, header', hconsensus, hheader', hvote⟩
    rw [hget, hok] at hheader'
    cases hheader'
    exact ⟨consensus, hconsensus, hvote⟩
  · rintro ⟨consensus, hconsensus, hvote⟩
    refine ⟨hcached, fun _ => ⟨consensus, header, hconsensus, ?_, hvote⟩⟩
    rw [hget]
    exact hok

/-- What the height and the last consensus depend on. -/
theorem HeightCertified.congr {store' : BlockStore} (h : HeightCertified c store)
    (hcached : store'.cachedHeight = 0 ∨ store'.cachedHeight = store.cachedHeight)
    (hheight : store'.height = store.height) (hconsensus : store'.lastConsensus = store.lastConsensus)
    (hheader : store'.header store.height = store.header store.height) : HeightCertified c store' := by
  have hcached' : store'.cachedHeight = 0 ∨ store'.cachedHeight = store'.height := by
    rcases hcached with hzero | heq
    · exact .inl hzero
    · rw [heq, hheight]
      exact h.cached
  have hget : store'.getHeight = store.height := (getHeight_of_cached hcached').trans hheight
  refine ⟨hcached', ?_⟩
  intro hpos
  obtain ⟨consensus, header, hlast, hheaderOk, hvote⟩ := h.certified (by rw [h.getHeight_eq]; omega)
  refine ⟨consensus, header, ?_, ?_, hvote⟩
  · rw [BlockStore.getLastConsensus, hconsensus]
    exact hlast
  · rw [hget, BlockStore.getHeader, hheader, ← h.getHeight_eq]
    exact hheaderOk

theorem HeightCertified.restarted (h : HeightCertified c store) : HeightCertified c (restarted store) :=
  h.congr (.inl rfl) rfl rfl rfl

/-- The header or the body of a block that is not the one at the height. -/
inductive Aside (store : BlockStore) (height : Nat) : Write → Prop
  | header (header : BlockHeader) (hne : store.height ≠ height) :
      Aside store height (.header height header)
  | body (body : BlockBody) : Aside store height (.body height body)

theorem HeightCertified.aside {write : Write} (h : HeightCertified c store)
    (hwrite : Aside store height write) : HeightCertified c (write.apply store) := by
  cases hwrite with
  | header header hne => exact h.congr (.inr rfl) rfl rfl (Function.update_of_ne hne _ _)
  | body body => exact h.congr (.inr rfl) rfl rfl rfl

theorem Aside.height_apply {write : Write} (h : Aside store height write) :
    (write.apply store).height = store.height := by
  cases h with
  | header header hne => rfl
  | body body => rfl

variable {fault : Fault} {after : BlockStore}

theorem Aside.stranded_iff {write : Write} {height' : Nat} (h : Aside store height' write) :
    Stranded c fault (write.apply store) height header ↔ Stranded c fault store height header := by
  cases h with
  | header header hne => rfl
  | body body => rfl

/-- A failure that leaves the two together, whatever else it does. -/
theorem together (hafter : HeightCertified c after) (hbetween : fault.between = false) :
    HeightCertified c after ↔ ¬ Stranded c fault store height header := by
  refine iff_of_true hafter ?_
  rintro ⟨-, htrue, -⟩
  rw [hbetween] at htrue
  cases htrue

/-- The height is up and the last consensus is the old one. -/
theorem apart (hcached : after.cachedHeight = 0 ∨ after.cachedHeight = after.height)
    (hheight : after.height = height) (hheader : after.header height = some header)
    (hconsensus : after.lastConsensus = store.lastConsensus) (hlt : store.getHeight < height)
    (hbetween : fault.between = true) :
    HeightCertified c after ↔ ¬ Stranded c fault store height header := by
  have hlast : after.getLastConsensus = store.getLastConsensus := by
    rw [BlockStore.getLastConsensus, hconsensus]
    rfl
  rw [heightCertified_iff_vote hcached hheight (by omega) hheader, hlast]
  constructor
  · rintro ⟨consensus, hok, hvote⟩ ⟨-, -, hother⟩
    exact hother consensus hok hvote
  · intro hnot
    by_contra hnone
    exact hnot ⟨hlt, hbetween, fun consensus hok hvote => hnone ⟨consensus, hok, hvote⟩⟩

/-- The height is up and the last consensus is the one for its block. -/
theorem raised {consensus : Consensus}
    (hcached : after.cachedHeight = 0 ∨ after.cachedHeight = after.height)
    (hheight : after.height = height) (hpos : 1 ≤ height) (hheader : after.header height = some header)
    (hconsensus : after.lastConsensus = some consensus)
    (hvote : consensus.vote.blockHash = header.hash c) : HeightCertified c after := by
  refine (heightCertified_iff_vote hcached hheight hpos hheader).mpr ⟨consensus, ?_, hvote⟩
  rw [BlockStore.getLastConsensus, hconsensus]

end Certified

/-! ## The three runs -/

section Runs

variable {c : Crypto} {blockchain : Blockchain} {options : SynchronizerOptions} {fault : Fault}
  {store : BlockStore} {height : Nat} {header : BlockHeader} {consensus : Consensus}

theorem updateHeight_certified (hbefore : HeightCertified c store)
    (hheader : store.header height = some header) (hvote : consensus.vote.blockHash = header.hash c) :
    ∃ after, updateHeight fault store height consensus = some after ∧
      (HeightCertified c after ↔ ¬ Stranded c fault store height header) := by
  rw [updateHeight]
  rcases Nat.lt_or_ge store.getHeight height with hlt | hle
  · have hpos : 1 ≤ height := by omega
    have hread : Update.following height consensus store .readHeight = (none, some .setHeight) := by
      rw [Update.following, Update.next, if_pos hlt]
    rw [runAlone_goes hread]
    by_cases hkey : fault.key = .height
    · refine ⟨_, runAlone_fails rfl (congrArg some hkey.symm), ?_⟩
      rcases fault with ⟨key, failure⟩
      obtain rfl : key = .height := hkey
      cases failure with
      | rejected => exact together hbefore rfl
      | crashed landed =>
          cases landed with
          | false => exact together hbefore.restarted rfl
          | true =>
              -- the process ends with the height written and nothing else
              exact apart (.inl rfl) rfl hheader rfl hlt rfl
    · have hset : Update.following height consensus store .setHeight =
          (some (.height height), some .cacheHeight) := rfl
      have hcache : ∀ store, Update.following height consensus store .cacheHeight =
          (some (.cachedHeight height), some .setLastConsensus) := fun _ => rfl
      rw [runAlone_writes hset (fun heq => hkey (Option.some.inj heq).symm),
        runAlone_writes (hcache _) nofun]
      by_cases hkey' : fault.key = .consensus
      · refine ⟨_, runAlone_fails rfl (congrArg some hkey'.symm), ?_⟩
        rcases fault with ⟨key, failure⟩
        obtain rfl : key = .consensus := hkey'
        cases failure with
        | rejected =>
            -- the process goes on with the height in the store and in the cache
            exact apart (.inr rfl) rfl hheader rfl hlt rfl
        | crashed landed =>
            cases landed with
            | false => exact apart (.inl rfl) rfl hheader rfl hlt rfl
            | true => exact together (raised (.inl rfl) rfl hpos hheader rfl hvote) rfl
      · -- both writes have landed
        refine ⟨_, runAlone_last rfl (fun heq => hkey' (Option.some.inj heq).symm), ?_⟩
        refine together (raised (.inr rfl) rfl hpos hheader rfl hvote) ?_
        rcases fault with ⟨key, failure⟩
        cases key with
        | height => exact absurd rfl hkey
        | consensus => exact absurd rfl hkey'
        | header => rfl
        | body => rfl
        | validatorSet => rfl
  · have hread : Update.following height consensus store .readHeight = (none, none) := by
      rw [Update.following, Update.next, if_neg (Nat.not_lt.mpr hle)]
    -- the height is known already, and nothing is written
    refine ⟨store, runAlone_ends hread, iff_of_true hbefore ?_⟩
    rintro ⟨hlt, -, -⟩
    omega

/-- The end of `catchUpAsync` does to the store what `updateHeight` does. -/
theorem endOfCatchUp_eq {consented : ConsentedHeader} {after : BlockStore}
    (h : updateHeight fault store consented.height consented.consensus = some after) :
    endOfCatchUp c blockchain options fault store consented = some after := by
  rw [endOfCatchUp, runAlone_goes rfl]
  have hrest : ∀ place, (none : Option CatchUp) = some place → ∀ store,
      CatchUp.following c blockchain options store place = (none, none) := nofun
  refine runAlone_call ?_ (fun _ => rfl) hrest h
  intro store place
  rw [Option.or_none]
  rfl

/-- The block of a turn of `chainPendingBlock` is the next one, and it and its consensus are valid. -/
structure Chains (c : Crypto) (blockchain : Blockchain) (store : BlockStore) (pending : Pending) :
    Prop where
  height : pending.height = store.getHeight + 1
  block : pending.block.validate c = .ok ()
  consensus : ∃ validatorSet, Blockchain.validatorSetOf store pending.height = .ok validatorSet ∧
    pending.consensus.validate c (pending.block.hash c) (blockchain.genesisHash c) validatorSet = .ok ()

variable {pending : Pending} {bodyFirst : Bool}

/-- A turn writes nothing, or it comes to the writes of a block that can be chained. -/
theorem chainPendingBlock_cases (c : Crypto) (blockchain : Blockchain) (fault : Fault)
    (store : BlockStore) (pending : Pending) (bodyFirst : Bool) :
    (¬ Chains c blockchain store pending ∧
      chainPendingBlock c blockchain fault store pending bodyFirst = some store) ∨
    (Chains c blockchain store pending ∧
      chainPendingBlock c blockchain fault store pending bodyFirst =
        runAlone (Chaining.following c blockchain pending bodyFirst)
          (Chaining.beside pending bodyFirst) fault 7 store .setHeaderAndBody) := by
  rw [chainPendingBlock]
  by_cases hheight : pending.height = store.getHeight + 1
  · cases hvalid : pending.block.validate c with
    | error e =>
        -- the block is not valid in itself
        refine .inl ⟨fun h => (nomatch hvalid.symm.trans h.block), runAlone_ends ?_⟩
        simp [Chaining.following, Chaining.next, hheight, hvalid, Next.place]
    | ok _ =>
        have hread : Chaining.following c blockchain pending bodyFirst store .readHeight =
            (none, some .takeReadLock) := by
          simp [Chaining.following, Chaining.next, hheight, hvalid, Next.place]
        have hlock : Chaining.following c blockchain pending bodyFirst store .takeReadLock =
            (none, some .getHeader) := rfl
        rw [runAlone_goes hread, runAlone_goes hlock]
        cases hheader : store.getHeader (Blockchain.definingHeight pending.height) with
        | error e =>
            -- the header that names the validators is not stored
            refine .inl ⟨?_, runAlone_ends ?_⟩
            · rintro ⟨-, -, validatorSet, hset, -⟩
              rw [Blockchain.validatorSetOf, hheader] at hset
              cases hset
            · simp [Chaining.following, Chaining.next, hheader, Next.place]
        | ok header =>
            have hget : Chaining.following c blockchain pending bodyFirst store .getHeader =
                (none, some (.getValidatorSet header.nextValidatorSetRoot)) := by
              simp [Chaining.following, Chaining.next, hheader, Next.place]
            have hsetOf : Blockchain.validatorSetOf store pending.height =
                store.getValidatorSet header.nextValidatorSetRoot := by
              rw [Blockchain.validatorSetOf, hheader]
              rfl
            rw [runAlone_goes hget]
            cases hset : store.getValidatorSet header.nextValidatorSetRoot with
            | error e =>
                -- the validators that it names are not stored
                refine .inl ⟨?_, runAlone_ends ?_⟩
                · rintro ⟨-, -, validatorSet, hok, -⟩
                  cases hok.symm.trans (hsetOf.trans hset)
                · simp [Chaining.following, Chaining.next, hset, Next.place]
            | ok validatorSet =>
                cases hconsensus : pending.consensus.validate c (pending.block.hash c)
                    (blockchain.genesisHash c) validatorSet with
                | error e =>
                    -- the consensus is not one of theirs for this block
                    refine .inl ⟨?_, runAlone_ends ?_⟩
                    · rintro ⟨-, -, validatorSet', hok, hvalid'⟩
                      cases hok.symm.trans (hsetOf.trans hset)
                      cases hconsensus.symm.trans hvalid'
                    · simp [Chaining.following, Chaining.next, hset, hconsensus, Next.place]
                | ok _ =>
                    have hvalidate : Chaining.following c blockchain pending bodyFirst store
                        (.getValidatorSet header.nextValidatorSetRoot) =
                          (none, some .takeWriteLock) := by
                      simp [Chaining.following, Chaining.next, hset, hconsensus, Next.place]
                    have hwriteLock : Chaining.following c blockchain pending bodyFirst store
                        .takeWriteLock = (none, some .recheckHeight) := rfl
                    have hrecheck : Chaining.following c blockchain pending bodyFirst store
                        .recheckHeight = (none, some .setHeaderAndBody) := by
                      simp [Chaining.following, Chaining.next, hheight, Next.place]
                    rw [runAlone_goes hvalidate, runAlone_goes hwriteLock, runAlone_goes hrecheck]
                    exact .inr ⟨⟨hheight, hvalid, validatorSet, hsetOf.trans hset, hconsensus⟩, rfl⟩
  · -- a block further ahead is queued again, and a known one is dropped
    refine .inl ⟨fun h => hheight h.height, runAlone_ends ?_⟩
    by_cases hgreater : pending.height > store.getHeight
    · simp [Chaining.following, Chaining.next, hheight, hgreater, Next.place]
    · simp [Chaining.following, Chaining.next, hgreater, Next.place]

/-- The two writes of the block, in the order in which they land. -/
theorem writes_of_block (c : Crypto) (blockchain : Blockchain) (pending : Pending) (bodyFirst : Bool) :
    ∃ first second place,
      (∀ store, Chaining.following c blockchain pending bodyFirst store .setHeaderAndBody =
        (some first, some place)) ∧
      (∀ store, Chaining.following c blockchain pending bodyFirst store place =
        (some second, some (.update .readHeight))) ∧
      Chaining.beside pending bodyFirst .setHeaderAndBody = some second ∧
      Chaining.beside pending bodyFirst place = none ∧
      (∀ store : BlockStore, store.height ≠ pending.height →
        Aside store pending.height first ∧ Aside store pending.height second) ∧
      ∀ store, second.apply (first.apply store) =
        (store.setHeader pending.height pending.block.header).setBody pending.height
          pending.block.body := by
  cases bodyFirst with
  | false =>
      refine ⟨_, _, .setBody, fun _ => rfl, fun _ => rfl, rfl, rfl, ?_, fun _ => rfl⟩
      exact fun _ hne => ⟨.header _ hne, .body _⟩
  | true =>
      refine ⟨_, _, .setHeader, fun _ => rfl, fun _ => rfl, rfl, rfl, ?_, fun _ => rfl⟩
      exact fun _ hne => ⟨.body _, .header _ hne⟩

/-- The failure of a write aside leaves the height and the last consensus together. -/
theorem aside_fails {write : Write} {other : Option Write} (hbefore : HeightCertified c store)
    (hwrite : Aside store height write) (hother : ∀ w, other = some w → Aside store height w)
    (hkey : write.key = some fault.key) :
    HeightCertified c (fault.failure.leaves store write other) ↔
      ¬ Stranded c fault store height header := by
  -- a header or a body is written before the height, so the fault is not between the other two
  have hbetween : fault.between = false := by
    rcases fault with ⟨key, failure⟩
    cases hwrite with
    | header header hne =>
        cases hkey
        rfl
    | body body =>
        cases hkey
        rfl
  refine together ?_ hbetween
  cases fault.failure with
  | rejected =>
      cases other with
      | none => exact hbefore
      | some w => exact hbefore.aside (hother w rfl)
  | crashed landed =>
      cases landed with
      | true => exact (hbefore.aside hwrite).restarted
      | false => exact hbefore.restarted

/-- `chainPendingBlock` writes nothing after `updateHeight`. -/
theorem update_of_chaining {after : BlockStore}
    (h : updateHeight fault store pending.height pending.consensus = some after) :
    runAlone (Chaining.following c blockchain pending bodyFirst) (Chaining.beside pending bodyFirst)
      fault 5 store (.update .readHeight) = some after := by
  have hstep : ∀ store place, Chaining.following c blockchain pending bodyFirst store (.update place) =
      ((Update.following pending.height pending.consensus store place).1,
        ((Update.following pending.height pending.consensus store place).2.map Chaining.update).or
          (some .propagateBlock)) := by
    intro store place
    rw [Chaining.following, Chaining.next, Update.following]
    rcases place.next store pending.height pending.consensus with ⟨write, next⟩
    cases next with
    | none => rfl
    | some stage => rfl
  refine runAlone_call hstep (fun _ => rfl) ?_ h
  intro place hplace store
  cases hplace
  rfl

theorem chainPendingBlock_certified (hbefore : HeightCertified c store) :
    ∃ after, chainPendingBlock c blockchain fault store pending bodyFirst = some after ∧
      (HeightCertified c after ↔ ¬ (Chains c blockchain store pending ∧
        Stranded c fault store pending.height pending.block.header)) := by
  rcases chainPendingBlock_cases c blockchain fault store pending bodyFirst with
    ⟨hnot, hrun⟩ | ⟨hchains, hrun⟩
  · exact ⟨store, hrun, iff_of_true hbefore fun h => hnot h.1⟩
  · rw [hrun, and_iff_right hchains]
    obtain ⟨first, second, place, hfirst, hsecond, hbeside, hnone, haside, happly⟩ :=
      writes_of_block c blockchain pending bodyFirst
    have hne : store.height ≠ pending.height := by
      rw [← hbefore.getHeight_eq, hchains.height]
      omega
    -- the first write of the block fails, or the second one, or one of `updateHeight`, or none
    by_cases hkey : first.key = some fault.key
    · refine ⟨_, runAlone_fails (hfirst store) hkey, ?_⟩
      refine aside_fails hbefore (haside store hne).1 ?_ hkey
      -- `Promise.all` does not wait for the second write, which lands all the same
      intro write hwrite
      cases hbeside.symm.trans hwrite
      exact (haside store hne).2
    · rw [runAlone_writes (hfirst store) hkey, ← (haside store hne).1.stranded_iff]
      have hmiddle := hbefore.aside (haside store hne).1
      have hne' : (first.apply store).height ≠ pending.height := by
        rwa [(haside store hne).1.height_apply]
      by_cases hkey' : second.key = some fault.key
      · refine ⟨_, runAlone_fails (hsecond _) hkey', ?_⟩
        refine aside_fails hmiddle (haside _ hne').2 ?_ hkey'
        intro write hwrite
        cases hnone.symm.trans hwrite
      · rw [runAlone_writes (hsecond _) hkey', ← (haside _ hne').2.stranded_iff]
        rcases hchains.consensus with ⟨validatorSet, -, hvalid⟩
        have hheader : (second.apply (first.apply store)).header pending.height =
            some pending.block.header := by
          rw [happly]
          exact BlockStore.header_setHeader
        obtain ⟨after, hafter, hiff⟩ := @updateHeight_certified _ fault _ _ _ pending.consensus
          (hmiddle.aside (haside _ hne').2) hheader (Consensus.validate_eq_ok_iff.mp hvalid).1
        exact ⟨after, update_of_chaining hafter, hiff⟩

end Runs

/-- The run ends, and the height and the last consensus are together after it exactly if the failure
has not come between their writes. -/
theorem heightCertified_iff (c : Crypto) (blockchain : Blockchain) (options : SynchronizerOptions)
    (fault : Fault) (store : BlockStore) (hbefore : HeightCertified c store) :
    (∀ height header consensus, store.header height = some header →
      consensus.vote.blockHash = header.hash c →
      ∃ after, updateHeight fault store height consensus = some after ∧
        (HeightCertified c after ↔ ¬ Stranded c fault store height header)) ∧
    (∀ pending bodyFirst,
      ∃ after, chainPendingBlock c blockchain fault store pending bodyFirst = some after ∧
        (HeightCertified c after ↔ ¬ (Chains c blockchain store pending ∧
          Stranded c fault store pending.height pending.block.header))) ∧
    ∀ consented : ConsentedHeader, store.header consented.height = some consented.header →
      consented.consensus.vote.blockHash = consented.header.hash c →
      ∃ after, endOfCatchUp c blockchain options fault store consented = some after ∧
        (HeightCertified c after ↔ ¬ Stranded c fault store consented.height consented.header) := by
  refine ⟨?_, ?_, ?_⟩
  · intro height header consensus hheader hvote
    exact updateHeight_certified hbefore hheader hvote
  · intro pending bodyFirst
    exact chainPendingBlock_certified hbefore
  · intro consented hheader hvote
    rcases @updateHeight_certified c fault _ _ _ _ hbefore hheader hvote with ⟨after, hafter, hiff⟩
    exact ⟨after, endOfCatchUp_eq hafter, hiff⟩

/-! ### The second block -/

def tipHeader : BlockHeader :=
  { sampleGenesis.header with height := 2, height_lt := BlockHeader.two_lt }

def voteFor (header : BlockHeader) : Consensus := ⟨⟨header.height, 1, header.hash .transparent⟩, []⟩

/-- A store with the first block and its consensus, and the header of the second one. -/
def secondStore : BlockStore :=
  { BlockStore.empty with
    height := 1
    lastConsensus := some (voteFor sampleGenesis.header)
    header := fun height =>
      if height = 1 then some sampleGenesis.header else if height = 2 then some tipHeader else none }

def lostConsensus : Fault := ⟨.consensus, .rejected⟩

theorem certified_secondStore : HeightCertified .transparent secondStore :=
  ⟨.inl rfl, fun _ => ⟨_, _, rfl, rfl, rfl⟩⟩

theorem hash_tipHeader : (voteFor sampleGenesis.header).vote.blockHash ≠ tipHeader.hash .transparent := by
  decide +kernel

/-- The write of the last consensus fails, and the node goes on with the height of the second block
and the consensus of the first. -/
theorem not_heightCertified :
    ¬ ∀ (c : Crypto) (fault : Fault) (store : BlockStore), HeightCertified c store →
      ∀ height header consensus after, store.header height = some header →
        consensus.vote.blockHash = header.hash c →
        updateHeight fault store height consensus = some after → HeightCertified c after := by
  intro h
  obtain ⟨-, hcertified⟩ := h .transparent lostConsensus secondStore certified_secondStore 2 tipHeader
    (voteFor tipHeader) _ rfl rfl rfl
  rcases hcertified (by decide) with ⟨consensus, header, hconsensus, hheader, hvote⟩
  cases hconsensus
  cases hheader
  exact hash_tipHeader hvote

theorem heightCertified_iff_sample :
    ∃ after, updateHeight lostConsensus secondStore 2 (voteFor tipHeader) = some after ∧
      ¬ HeightCertified .transparent after := by
  obtain ⟨after, hafter, hiff⟩ := (heightCertified_iff .transparent ⟨sampleGenesis, soleValidatorSet⟩
    ⟨1000, 100, 50⟩ lostConsensus secondStore certified_secondStore).1 2 tipHeader (voteFor tipHeader)
    rfl rfl
  refine ⟨after, hafter, ?_⟩
  rw [hiff, not_not]
  refine ⟨by decide, rfl, ?_⟩
  intro consensus hconsensus
  cases hconsensus
  exact hash_tipHeader

end ChainCore
end UniqysKit
