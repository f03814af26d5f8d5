import UniqysKit.ChainCore.HeightAuthority

/-!
# The proof of consensus that a node serves

`Blockchain.consensusOf` answers for the tip with the certificate it was chained with, and for every
other height with the `lastBlockConsensus` of the next block, which its proposer has chosen and nobody
has checked.  `ProofGuarded` lists what must not happen at a step of a node that only chains blocks;
in the runs in which it does not, every answer is a proof (`consensus_servable`).
-/

namespace UniqysKit
namespace ChainCore

open Library

/-- The body of the block is written, and the height is not raised yet. -/
def Chaining.filled : Chaining → Bool
  | .setHeader => true
  | .update .readHeight => true
  | .update .setHeight => true
  | _ => false

/-- The height is raised, and the certificate is not written yet. -/
def Chaining.raised : Chaining → Bool
  | .update .cacheHeight => true
  | .update .setLastConsensus => true
  | _ => false

theorem Chaining.writes_of_raised {place : Chaining} (h : place.raised = true) :
    place.writes = true := by
  cases place with
  | update stage => rfl
  | _ => cases h

theorem Chaining.not_raised_of_certified {place : Chaining} (h : place.certified = true) :
    place.raised = false := by
  cases place with
  | update stage =>
      cases stage with
      | cacheHeight => cases h
      | setLastConsensus => cases h
      | _ => rfl
  | _ => rfl

theorem Chaining.Goes.not_raised {c : Crypto} {blockchain : Blockchain} {s : Synchronizer}
    {pending : Pending} {place place' : Chaining} (hgoes : place.Goes c blockchain s pending place') :
    place.raised = false := by
  cases hgoes with
  | _ => rfl

namespace Synchronizer

section Definitions

variable (c : Crypto) (blockchain : Blockchain) (options : SynchronizerOptions)

/-- The certificate passes `Consensus.validate` for the stored block of the height, with the validator
set of the height. -/
def Proves (store : BlockStore) (h : Nat) (consensus : Consensus) : Prop :=
  ∃ header validatorSet, store.header h = some header ∧
    Blockchain.validatorSetOf store h = .ok validatorSet ∧
    consensus.validate c (header.hash c) (blockchain.genesisHash c) validatorSet = .ok ()

/-- What `consensusOf` answers once it has the read lock is a proof, for every height of the chain. -/
def Servable (s : Synchronizer) : Prop :=
  s.isReady = true → s.chainingWrites = false → s.catchUpWrites = false →
    ∀ h, 1 ≤ h → h ≤ s.store.getHeight →
      ∃ consensus, Blockchain.consensusOf s.store h = .ok consensus ∧
        Proves c blockchain s.store h consensus

/-- What must hold at a step:
the block that is chained above another carries a proof for that block;
the first block names the validators that the genesis block names;
a validator set is not stored in the place of another one;
and the node is not started again between raising the height and writing the certificate. -/
structure ProofGuarded (s : Synchronizer) (event : Event) : Prop where
  carried : ∀ bodyFirst h body, event = .chain bodyFirst → 1 ≤ h →
    s.written c blockchain options event = some (.body (h + 1) body) →
      Proves c blockchain s.store h body.lastBlockConsensus
  first : ∀ bodyFirst header, event = .chain bodyFirst →
    s.written c blockchain options event = some (.header 1 header) →
      ∀ stored, s.store.header 1 = some stored →
        header.nextValidatorSetRoot = stored.nextValidatorSetRoot
  validatorSets : ∀ validatorSet root stored,
    event = .setValidatorSet validatorSet ∨
      event = .start ∧ validatorSet = blockchain.initialValidatorSet →
    validatorSet.hash c = .ok root → s.store.validatorSet root = some stored → stored = validatorSet
  restart : event = .start → ∀ entry ∈ s.chaining, entry.2.raised = false

/-- The certificate of the pending block was validated with the validators of its height. -/
def Elected (store : BlockStore) (pending : Pending) : Prop :=
  ∃ header validatorSet, store.header (Blockchain.definingHeight pending.height) = some header ∧
    store.validatorSet header.nextValidatorSetRoot = some validatorSet ∧
    pending.consensus.validate c (pending.block.hash c) (blockchain.genesisHash c) validatorSet =
      .ok ()

/-- What is known of the pending block where `chainPendingBlock` is. -/
structure Electing (store : BlockStore) (pending : Pending) (place : Chaining) : Prop where
  due : place.checked = true → pending.height = store.height + 1
  named : ∀ root, place = .getValidatorSet root → ∃ header,
    store.header (Blockchain.definingHeight pending.height) = some header ∧
      header.nextValidatorSetRoot = root
  elected : place.certified = true → Elected c blockchain store pending
  header : place.commits = true → store.header pending.height = some pending.block.header
  body : place.filled = true → store.body pending.height = some pending.block.body ∧
    (1 ≤ store.height → Proves c blockchain store store.height pending.block.body.lastBlockConsensus)
  raised : place.raised = true → pending.height = store.height ∧ 1 ≤ store.height ∧
    Proves c blockchain store store.height pending.consensus

/-- Each block below the tip is proved by the block above it. -/
def ProvedBelow (store : BlockStore) : Prop :=
  ∀ h, 1 ≤ h → h < store.height → ∃ body, store.body (h + 1) = some body ∧
    Proves c blockchain store h body.lastBlockConsensus

/-- The tip is proved by the last certificate. -/
def ProvedTip (store : BlockStore) : Prop :=
  1 ≤ store.height → ∃ consensus, store.lastConsensus = some consensus ∧
    Proves c blockchain store store.height consensus

/-- The invariant of guarded runs. -/
structure Proved (s : Synchronizer) : Prop where
  locked : s.Locked
  idle : ∀ place ∈ s.catchUp, place.writes = false
  below : ProvedBelow c blockchain s.store
  tip : (∀ entry ∈ s.chaining, entry.2.raised = false) → ProvedTip c blockchain s.store
  chaining : ∀ entry ∈ s.chaining, Electing c blockchain s.store entry.1 entry.2

end Definitions

section Frames

variable {c : Crypto} {blockchain : Blockchain} {store store' : BlockStore} {pending : Pending}
  {place : Chaining} {h : Nat} {consensus : Consensus}

/-- The store still has what the other has of the headers up to a height, and of the validator sets. -/
structure Retains (store store' : BlockStore) (height : Nat) : Prop where
  header : ∀ h, h ≤ height → store'.header h = store.header h
  validatorSet : ∀ root validatorSet, store.validatorSet root = some validatorSet →
    store'.validatorSet root = some validatorSet

theorem definingHeight_le {height : Nat} (hpos : 1 ≤ h) (hle : h ≤ height) :
    Blockchain.definingHeight h ≤ height := by
  unfold Blockchain.definingHeight
  split
  · omega
  · omega

theorem Proves.frame {height : Nat} (hproves : Proves c blockchain store h consensus)
    (hretains : Retains store store' height) (hpos : 1 ≤ h) (hle : h ≤ height) :
    Proves c blockchain store' h consensus := by
  rcases hproves with ⟨header, validatorSet, hheader, hset, hvalid⟩
  rcases Blockchain.validatorSetOf_eq_ok.mp hset with ⟨naming, hnaming, hstored⟩
  refine ⟨header, validatorSet, ?_, Blockchain.validatorSetOf_eq_ok.mpr ⟨naming, ?_, ?_⟩, hvalid⟩
  · rw [hretains.header h hle]
    exact hheader
  · rw [hretains.header _ (definingHeight_le hpos hle)]
    exact hnaming
  · exact hretains.validatorSet _ _ hstored

theorem ProvedBelow.frame (hbelow : ProvedBelow c blockchain store)
    (hheight : store'.height = store.height) (hretains : Retains store store' store.height)
    (hbody : ∀ h, h ≤ store.height → store'.body h = store.body h) :
    ProvedBelow c blockchain store' := by
  intro h hpos hlt
  rw [hheight] at hlt
  rcases hbelow h hpos hlt with ⟨body, hstored, hproves⟩
  exact ⟨body, (hbody (h + 1) hlt).trans hstored, hproves.frame hretains hpos hlt.le⟩

theorem ProvedTip.frame (htip : ProvedTip c blockchain store)
    (hheight : store'.height = store.height) (hretains : Retains store store' store.height)
    (hconsensus : store'.lastConsensus = store.lastConsensus) : ProvedTip c blockchain store' := by
  unfold ProvedTip
  rw [hheight, hconsensus]
  intro hpos
  rcases htip hpos with ⟨consensus, hstored, hproves⟩
  exact ⟨consensus, hstored, hproves.frame hretains hpos le_rfl⟩

theorem Elected.frame (helected : Elected c blockchain store pending)
    (hheader : store'.header (Blockchain.definingHeight pending.height) =
      store.header (Blockchain.definingHeight pending.height))
    (hsets : ∀ root validatorSet, store.validatorSet root = some validatorSet →
      store'.validatorSet root = some validatorSet) : Elected c blockchain store' pending := by
  rcases helected with ⟨header, validatorSet, hnaming, hstored, hvalid⟩
  exact ⟨header, validatorSet, hheader.trans hnaming, hsets _ _ hstored, hvalid⟩

/-- A store with the same blocks, and the validator sets that were there. -/
theorem Electing.frame (helecting : Electing c blockchain store pending place)
    (hheight : store'.height = store.height) (hheader : store'.header = store.header)
    (hbody : store'.body = store.body)
    (hsets : ∀ root validatorSet, store.validatorSet root = some validatorSet →
      store'.validatorSet root = some validatorSet) : Electing c blockchain store' pending place := by
  have hretains : Retains store store' store.height := ⟨fun h _ => by rw [hheader], hsets⟩
  refine ⟨?_, ?_, ?_, ?_, ?_, ?_⟩
  · rw [hheight]
    exact helecting.due
  · rw [hheader]
    exact helecting.named
  · intro hplace
    exact (helecting.elected hplace).frame (by rw [hheader]) hsets
  · rw [hheader]
    exact helecting.header
  · intro hplace
    rcases helecting.body hplace with ⟨hstored, hproves⟩
    rw [hheight, hbody]
    exact ⟨hstored, fun hpos => (hproves hpos).frame hretains hpos le_rfl⟩
  · intro hplace
    rcases helecting.raised hplace with ⟨htip, hpos, hproves⟩
    rw [hheight]
    exact ⟨htip, hpos, hproves.frame hretains hpos le_rfl⟩

end Frames

section Steps

variable {c : Crypto} {blockchain : Blockchain} {options : SynchronizerOptions} {s : Synchronizer}
  {event : Event}

/-- With nobody writing, the height is the stored one. -/
theorem Proved.getHeight (hproved : s.Proved c blockchain)
    (hcaches : ∀ entry ∈ s.chaining, entry.2.caches = false) :
    s.store.getHeight = s.store.height := by
  refine hproved.locked.settled hcaches ?_
  intro place hplace
  by_contra hcaching
  rw [Bool.not_eq_false] at hcaching
  have hidle := hproved.idle place hplace
  rw [CatchUp.writes_of_caches hcaching] at hidle
  cases hidle

theorem Proved.servable (hproved : s.Proved c blockchain) : s.Servable c blockchain := by
  intro _ hchaining _ h hpos hle
  have hwrites : ∀ entry ∈ s.chaining, entry.2.writes = false := by
    intro entry hentry
    simp only [chainingWrites, Option.any_eq_false] at hchaining
    exact hchaining entry hentry
  -- no write is under way, so what is served is up to the height of the store
  have hget : s.store.getHeight = s.store.height := by
    refine hproved.getHeight ?_
    intro entry hentry
    by_contra hcaches
    rw [Bool.not_eq_false] at hcaches
    have hnot := hwrites entry hentry
    rw [Chaining.writes_of_caches hcaches] at hnot
    cases hnot
  rw [hget] at hle
  unfold Blockchain.consensusOf
  rw [hget]
  by_cases hsame : s.store.height = h
  · -- the tip is proved by the last certificate
    subst hsame
    obtain ⟨consensus, hstored, hproves⟩ := hproved.tip (by
      intro entry hentry
      by_contra hraised
      rw [Bool.not_eq_false] at hraised
      have hnot := hwrites entry hentry
      rw [Chaining.writes_of_raised hraised] at hnot
      cases hnot) hpos
    refine ⟨consensus, ?_, hproves⟩
    simp only [if_true, BlockStore.getLastConsensus, hstored]
  · rcases hproved.below h hpos (by omega) with ⟨body, hstored, hproves⟩
    refine ⟨body.lastBlockConsensus, ?_, hproves⟩
    simp only [if_neg hsame, BlockStore.getBody, hstored]
    rfl

/-- `chainPendingBlock` goes on with what is known of the pending block. -/
theorem Proved.electing_goes (hproved : s.Proved c blockchain) {pending : Pending}
    {place place' : Chaining} (hat : s.chaining = some (pending, place))
    (hgoes : place.Goes c blockchain s pending place') :
    Electing c blockchain s.store pending place' := by
  have hbefore := hproved.chaining _ hat
  cases hgoes with
  | check hheight _ =>
      have hget : s.store.getHeight = s.store.height := by
        refine hproved.getHeight ?_
        intro entry hentry
        obtain rfl := Option.mem_unique hentry hat
        rfl
      exact ⟨fun _ => hget ▸ hheight, nofun, nofun, nofun, nofun, nofun⟩
  | readLock _ => exact ⟨fun _ => hbefore.due rfl, nofun, nofun, nofun, nofun, nofun⟩
  | @header header hheader =>
      refine ⟨fun _ => hbefore.due rfl, ?_, nofun, nofun, nofun, nofun⟩
      rintro root ⟨⟩
      exact ⟨header, hheader, rfl⟩
  -- the certificate is valid for the validator set the header before it names
  | @validate root validatorSet hstored hvalid =>
      refine ⟨fun _ => hbefore.due rfl, nofun, ?_, nofun, nofun, nofun⟩
      intro _
      rcases hbefore.named root rfl with ⟨header, hheader, rfl⟩
      exact ⟨header, validatorSet, hheader, hstored, hvalid⟩
  | writeLock _ =>
      exact ⟨fun _ => hbefore.due rfl, nofun, fun _ => hbefore.elected rfl, nofun, nofun, nofun⟩
  | recheck _ =>
      exact ⟨fun _ => hbefore.due rfl, nofun, fun _ => hbefore.elected rfl, nofun, nofun, nofun⟩
  | higher _ =>
      exact ⟨fun _ => hbefore.due rfl, nofun, fun _ => hbefore.elected rfl,
        fun _ => hbefore.header rfl, fun _ => hbefore.body rfl, nofun⟩
  | late _ => exact ⟨nofun, nofun, nofun, nofun, nofun, nofun⟩
  | lower _ => exact ⟨nofun, nofun, nofun, nofun, nofun, nofun⟩

/-- The header of the pending block is written. -/
theorem Proved.writeHeader (hproved : s.Proved c blockchain) {pending : Pending}
    {place place' : Chaining} (hat : s.chaining = some (pending, place))
    (hlocked : ({ s with
      store := s.store.setHeader pending.height pending.block.header
      chaining := some (pending, place') } : Synchronizer).Locked)
    (hfirst : pending.height = 1 → ∀ stored, s.store.header 1 = some stored →
      pending.block.header.nextValidatorSetRoot = stored.nextValidatorSetRoot)
    (hcertified : place.certified = true) (hcertified' : place'.certified = true)
    (hfilled : place'.filled = place.filled) :
    ({ s with
      store := s.store.setHeader pending.height pending.block.header
      chaining := some (pending, place') } : Synchronizer).Proved c blockchain := by
  have hbefore := hproved.chaining _ hat
  have hnext := hbefore.due (Chaining.checked_of_certified hcertified)
  simp only at hnext
  have hretains : Retains s.store (s.store.setHeader pending.height pending.block.header)
      s.store.height :=
    ⟨fun h hle => BlockStore.header_setHeader_of_ne (by omega), fun _ _ hstored => hstored⟩
  refine ⟨hlocked, hproved.idle, hproved.below.frame rfl hretains fun _ _ => rfl, ?_, ?_⟩
  · intro _
    refine (hproved.tip ?_).frame rfl hretains rfl
    intro entry hentry
    obtain rfl := Option.mem_unique hentry hat
    exact Chaining.not_raised_of_certified hcertified
  · rintro entry ⟨⟩
    refine ⟨fun _ => hnext, ?_, ?_, fun _ => BlockStore.header_setHeader, ?_, ?_⟩
    · rintro root rfl
      cases hcertified'
    · intro _
      rcases hbefore.elected hcertified with ⟨header, validatorSet, hheader, hstored, hvalid⟩
      -- the validators of the first block are named by its own header
      by_cases hone : pending.height = 1
      · refine ⟨pending.block.header, validatorSet, ?_, ?_, hvalid⟩
        · simp [Blockchain.definingHeight, hone]
        · simp only [Blockchain.definingHeight, hone, if_true] at hheader
          rw [hfirst hone header hheader]
          exact hstored
      · refine ⟨header, validatorSet, ?_, hstored, hvalid⟩
        have hne : Blockchain.definingHeight pending.height ≠ pending.height := by
          unfold Blockchain.definingHeight
          rw [if_neg hone]
          omega
        exact (BlockStore.header_setHeader_of_ne hne).trans hheader
    · intro hplace
      rw [hfilled] at hplace
      rcases hbefore.body hplace with ⟨hstored, hproves⟩
      exact ⟨hstored, fun hpos => (hproves hpos).frame hretains hpos le_rfl⟩
    · intro hplace
      rw [Chaining.not_raised_of_certified hcertified'] at hplace
      cases hplace

/-- The body of the pending block is written. -/
theorem Proved.writeBody (hproved : s.Proved c blockchain) {pending : Pending}
    {place place' : Chaining} (hat : s.chaining = some (pending, place))
    (hlocked : ({ s with
      store := s.store.setBody pending.height pending.block.body
      chaining := some (pending, place') } : Synchronizer).Locked)
    (hcarried : ∀ h, 1 ≤ h → pending.height = h + 1 →
      Proves c blockchain s.store h pending.block.body.lastBlockConsensus)
    (hcertified : place.certified = true) (hcertified' : place'.certified = true)
    (hcommits : place'.commits = place.commits) :
    ({ s with
      store := s.store.setBody pending.height pending.block.body
      chaining := some (pending, place') } : Synchronizer).Proved c blockchain := by
  have hbefore := hproved.chaining _ hat
  have hnext := hbefore.due (Chaining.checked_of_certified hcertified)
  simp only at hnext
  have hretains : Retains s.store (s.store.setBody pending.height pending.block.body)
      s.store.height := ⟨fun _ _ => rfl, fun _ _ hstored => hstored⟩
  refine ⟨hlocked, hproved.idle, hproved.below.frame rfl hretains ?_, ?_, ?_⟩
  · intro h hle
    -- the body goes above the tip
    exact BlockStore.body_setBody_of_ne (by omega)
  · intro _
    refine (hproved.tip ?_).frame rfl hretains rfl
    intro entry hentry
    obtain rfl := Option.mem_unique hentry hat
    exact Chaining.not_raised_of_certified hcertified
  · rintro entry ⟨⟩
    refine ⟨fun _ => hnext, ?_, ?_, ?_, ?_, ?_⟩
    · rintro root rfl
      cases hcertified'
    · intro _
      exact (hbefore.elected hcertified).frame rfl fun _ _ hstored => hstored
    · intro hplace
      rw [hcommits] at hplace
      exact hbefore.header hplace
    · intro _
      -- the body that is now stored carries the proof for the block below
      refine ⟨BlockStore.body_setBody, fun hpos => ?_⟩
      exact (hcarried _ hpos hnext).frame hretains hpos le_rfl
    · intro hplace
      rw [Chaining.not_raised_of_certified hcertified'] at hplace
      cases hplace

/-- The height is raised, with the block before it proved by the body of the pending block. -/
theorem Proved.writeHeight (hproved : s.Proved c blockchain) {pending : Pending}
    (hat : s.chaining = some (pending, .update .setHeight))
    (hlocked : ({ s with
      store := s.store.setHeight pending.height
      chaining := some (pending, .update .cacheHeight) } : Synchronizer).Locked) :
    ({ s with
      store := s.store.setHeight pending.height
      chaining := some (pending, .update .cacheHeight) } : Synchronizer).Proved c blockchain := by
  have hbefore := hproved.chaining _ hat
  have hnext : pending.height = s.store.height + 1 := hbefore.due rfl
  rcases hbefore.body rfl with ⟨hbody, hcarried⟩
  have hretains : Retains s.store (s.store.setHeight pending.height) s.store.height :=
    ⟨fun _ _ => rfl, fun _ _ hstored => hstored⟩
  refine ⟨hlocked, hproved.idle, ?_, ?_, ?_⟩
  · intro h hpos hlt
    change h < pending.height at hlt
    by_cases hsame : h = s.store.height
    · -- the former tip
      subst hsame
      exact ⟨pending.block.body, hnext ▸ hbody, (hcarried hpos).frame hretains hpos le_rfl⟩
    · have hle : h < s.store.height := by omega
      rcases hproved.below h hpos hle with ⟨body, hstored, hproves⟩
      exact ⟨body, hstored, hproves.frame hretains hpos hle.le⟩
  · intro hraised
    cases hraised _ rfl
  · rintro entry ⟨⟩
    refine ⟨nofun, nofun, nofun, nofun, nofun, ?_⟩
    intro _
    -- the new tip is proved by the certificate it was chained with
    rcases hbefore.elected rfl with ⟨header, validatorSet, hheader, hstored, hvalid⟩
    refine ⟨rfl, ?_, pending.block.header, validatorSet, hbefore.header rfl,
      Blockchain.validatorSetOf_eq_ok.mpr ⟨header, hheader, hstored⟩, hvalid⟩
    change 1 ≤ pending.height
    omega

theorem Proved.chainWrites (hproved : s.Proved c blockchain) {pending : Pending}
    {place place' : Chaining} {write : Write} {bodyFirst : Bool}
    (hguard : ProofGuarded c blockchain options s (.chain bodyFirst))
    (hwritten : s.written c blockchain options (.chain bodyFirst) = some write)
    (hat : s.chaining = some (pending, place)) (hwrites : place.Writes pending write place') :
    ({ s with store := write.apply s.store, chaining := some (pending, place') } :
      Synchronizer).Proved c blockchain := by
  have hlocked := hproved.locked.chainWrites hat hwrites
  have hbefore := hproved.chaining _ hat
  -- the guard speaks of the write that is done, here of the pending block
  have hfirst : write = .header pending.height pending.block.header → pending.height = 1 →
      ∀ stored, s.store.header 1 = some stored →
        pending.block.header.nextValidatorSetRoot = stored.nextValidatorSetRoot := by
    rintro rfl hone
    rw [hone] at hwritten
    exact hguard.first bodyFirst _ rfl hwritten
  have hcarried : write = .body pending.height pending.block.body → ∀ h, 1 ≤ h →
      pending.height = h + 1 →
        Proves c blockchain s.store h pending.block.body.lastBlockConsensus := by
    rintro rfl h hpos hnext
    rw [hnext] at hwritten
    exact hguard.carried bodyFirst h _ rfl hpos hwritten
  cases hwrites with
  | headerFirst => exact hproved.writeHeader hat hlocked (hfirst rfl) rfl rfl rfl
  | header => exact hproved.writeHeader hat hlocked (hfirst rfl) rfl rfl rfl
  | bodyFirst => exact hproved.writeBody hat hlocked (hcarried rfl) rfl rfl rfl
  | body => exact hproved.writeBody hat hlocked (hcarried rfl) rfl rfl rfl
  | height => exact hproved.writeHeight hat hlocked
  -- nothing served changes, the height of the store has been raised before
  | cachedHeight =>
      refine ⟨hlocked, hproved.idle, hproved.below, ?_, ?_⟩
      · intro hraised
        cases hraised _ rfl
      · rintro entry ⟨⟩
        exact ⟨nofun, nofun, nofun, nofun, nofun, fun _ => hbefore.raised rfl⟩
  -- the certificate of the pending block becomes the one of the tip
  | lastConsensus =>
      refine ⟨hlocked, hproved.idle, hproved.below, ?_, ?_⟩
      · intro _ _
        exact ⟨pending.consensus, rfl, (hbefore.raised rfl).2.2⟩
      · rintro entry ⟨⟩
        exact ⟨nofun, nofun, nofun, nofun, nofun, nofun⟩

/-- Storing a validator set where that one or none was stored. -/
theorem retains_putValidatorSet {store : BlockStore} {root : Hash} {validatorSet : ValidatorSet}
    (hsame : ∀ stored, store.validatorSet root = some stored → stored = validatorSet) (height : Nat) :
    Retains store (store.putValidatorSet root validatorSet) height := by
  refine ⟨fun _ _ => rfl, ?_⟩
  intro root' validatorSet' hstored
  by_cases hroot : root' = root
  · subst hroot
    rw [hsame _ hstored]
    exact BlockStore.validatorSet_putValidatorSet
  · exact (BlockStore.validatorSet_putValidatorSet_of_ne hroot).trans hstored

/-- What holds of the chain while nothing is under way. -/
theorem proved_start {store : BlockStore} (hbelow : ProvedBelow c blockchain store)
    (htip : ProvedTip c blockchain store)
    (hsets : ∀ root stored, blockchain.initialValidatorSet.hash c = .ok root →
      store.validatorSet root = some stored → stored = blockchain.initialValidatorSet) :
    (start c blockchain store).Proved c blockchain := by
  have hlocked := @locked_start c blockchain store
  have hheight := @height_start c blockchain store
  rcases @start_cases c blockchain store with ⟨isReady, store', hstart, hstore⟩
  rw [hstart] at hlocked hheight ⊢
  change store'.height = store.height at hheight
  by_cases hzero : store.height = 0
  · -- an empty store has nothing to prove
    refine ⟨hlocked, nofun, ?_, ?_, nofun⟩
    · intro h _ hlt
      change h < store'.height at hlt
      omega
    · intro _ hpos
      change 1 ≤ store'.height at hpos
      omega
  · have hrooted : rootedStore blockchain store = { store with cachedHeight := 0 } := if_neg hzero
    rw [hrooted] at hstore
    rcases hstore with rfl | ⟨root, hroot, rfl⟩
    · exact ⟨hlocked, nofun, hbelow, fun _ => htip, nofun⟩
    · -- the initial validator set is stored again, where at most the same one was
      have hput := retains_putValidatorSet (fun stored => hsets root stored hroot) store.height
      have hretains : Retains store
          (({ store with cachedHeight := 0 } : BlockStore).putValidatorSet root
            blockchain.initialValidatorSet) store.height := ⟨hput.header, hput.validatorSet⟩
      exact ⟨hlocked, nofun, hbelow.frame rfl hretains fun _ _ => rfl,
        fun _ => htip.frame rfl hretains rfl, nofun⟩

theorem Proved.step (hproved : s.Proved c blockchain) (hcatches : event.catchesUp = false)
    (hguard : ProofGuarded c blockchain options s event) :
    (s.step c blockchain options event).Proved c blockchain := by
  have hrestart : event = .start → (start c blockchain s.store).Proved c blockchain := by
    rintro rfl
    refine proved_start hproved.below (hproved.tip (hguard.restart rfl)) ?_
    intro root stored hroot
    exact hguard.validatorSets _ root stored (.inr ⟨rfl, rfl⟩) hroot
  cases hready : s.isReady with
  | false =>
      -- before `ready` only a start does anything
      unfold Synchronizer.step
      rw [hready]
      split
      · exact hrestart rfl
      · exact hproved
      · rename_i heq
        cases heq
  | true =>
      have hmoves : s.Moves c blockchain options event (s.step c blockchain options event) :=
        step_moves hready event
      have hlocked : (s.step c blockchain options event).Locked := hproved.locked.step event
      -- what the step does is in `hmoves`, so the state after it is arbitrary from here on
      generalize s.step c blockchain options event = s' at hmoves hlocked ⊢
      cases hmoves with
      | stay => exact hproved
      | start => exact hrestart rfl
      | queue => exact ⟨hlocked, hproved.idle, hproved.below, hproved.tip, hproved.chaining⟩
      | @validatorSet validatorSet root hroot =>
          have hretains : Retains s.store (s.store.putValidatorSet root validatorSet)
              s.store.height :=
            retains_putValidatorSet
              (fun stored => hguard.validatorSets validatorSet root stored (.inl rfl) hroot) _
          refine ⟨hlocked, hproved.idle, hproved.below.frame rfl hretains fun _ _ => rfl, ?_, ?_⟩
          · intro hraised
            exact (hproved.tip hraised).frame rfl hretains rfl
          · intro entry hentry
            exact (hproved.chaining entry hentry).frame rfl rfl rfl hretains.validatorSet
      | dequeue hnone =>
          refine ⟨hlocked, hproved.idle, hproved.below, ?_, ?_⟩
          · intro _
            exact hproved.tip (by simp [hnone])
          · rintro entry ⟨⟩
            exact ⟨nofun, nofun, nofun, nofun, nofun, nofun⟩
      | @chainEnds _ _ pending place _ hat hends =>
          refine ⟨hlocked, hproved.idle, hproved.below, ?_, nofun⟩
          intro _
          refine hproved.tip ?_
          intro entry hentry
          obtain rfl := Option.mem_unique hentry hat
          cases place with
          | update stage => cases hends
          | _ => rfl
      | @chainGoes _ pending place place' hat hgoes =>
          refine ⟨hlocked, hproved.idle, hproved.below, ?_, ?_⟩
          · intro _
            refine hproved.tip ?_
            intro entry hentry
            obtain rfl := Option.mem_unique hentry hat
            exact hgoes.not_raised
          · rintro entry ⟨⟩
            exact hproved.electing_goes hat hgoes
      | chainWrites hwritten hat hwrites => exact hproved.chainWrites hguard hwritten hat hwrites
      | catchUp _ =>
          refine ⟨hlocked, ?_, hproved.below, hproved.tip, hproved.chaining⟩
          rintro place ⟨⟩
          rfl
      | catchUpGoes hevent _ _ =>
          -- the node of these runs does not catch up
          rw [hcatches] at hevent
          cases hevent
      | catchUpWrites hevent _ _ _ =>
          rw [hcatches] at hevent
          cases hevent

theorem proved_init : (init : Synchronizer).Proved c blockchain := by
  refine ⟨locked_new rfl, nofun, ?_, ?_, nofun⟩
  · intro h _ hlt
    cases hlt
  · intro _ hpos
    cases hpos

/-- In every run of a node that only chains, and whose steps are guarded, a proof can be served for
every block of the chain. -/
theorem consensus_servable (c : Crypto) (blockchain : Blockchain) (options : SynchronizerOptions)
    (events : List Event) (hchains : ∀ event ∈ events, event.catchesUp = false)
    (hguarded : Along (Synchronizer.step c blockchain options) init events
      (ProofGuarded c blockchain options)) :
    Throughout (Synchronizer.step c blockchain options) init events (Servable c blockchain) := by
  have hboth : Along (Synchronizer.step c blockchain options) init events
      (fun s event => event.catchesUp = false ∧ ProofGuarded c blockchain options s event) := by
    intro before event after hevents
    exact ⟨hchains event (by simp [hevents]), hguarded before event after hevents⟩
  have hproved : Throughout (Synchronizer.step c blockchain options) init events
      (Proved c blockchain) :=
    hboth.throughout proved_init fun s event hs hguard => hs.step hguard.1 hguard.2
  intro before after hevents
  exact (hproved before after hevents).servable

end Steps

section Sample

/-- A block of height 2 with some last certificate, and its own one. -/
def pendingCarrying (lastBlockConsensus : Consensus) : Pending :=
  let header : BlockHeader := { sampleGenesis.header with
    height := 2
    height_lt := BlockHeader.two_lt
    lastBlockHash := sampleGenesis.hash .transparent
    lastBlockConsensusRoot :=
      ((lastBlockConsensus.hash .transparent).toOption).getD Hash.zero }
  ⟨⟨header, ⟨⟨[]⟩, lastBlockConsensus⟩⟩, sampleCertificate (Consensus.sampleKey 1) header, true⟩

/-- The node chains the genesis block and then the block of height 2. -/
def carryingEvents (lastBlockConsensus : Consensus) : List Event :=
  genesisEvents ++ chainEvents (pendingCarrying lastBlockConsensus)

theorem catchesUp_carryingEvents (lastBlockConsensus : Consensus) :
    ∀ event ∈ carryingEvents lastBlockConsensus, event.catchesUp = false := by
  simp [carryingEvents, genesisEvents, chainEvents, Event.catchesUp]

/-- The second block carries the certificate with which the first was chained. -/
theorem proofGuarded_carryingEvents :
    Along (Synchronizer.step .transparent sampleChain sampleOptions) init
      (carryingEvents pendingGenesis.consensus)
      (ProofGuarded .transparent sampleChain sampleOptions) := by
  have hstates : ∀ before ∈ (carryingEvents pendingGenesis.consensus).inits,
      let s := before.foldl (Synchronizer.step .transparent sampleChain sampleOptions) init
      (∀ entry ∈ s.chaining, entry.1 = pendingGenesis ∨
        entry.1 = pendingCarrying pendingGenesis.consensus ∧
          s.store.validatorSet sampleGenesis.header.nextValidatorSetRoot = some soleValidatorSet) ∧
      (s.isReady = true → s.store.header 1 = some sampleGenesis.header) := by decide +kernel
  have hvalid : pendingGenesis.consensus.validate .transparent
      (sampleGenesis.header.hash .transparent) (sampleChain.genesisHash .transparent)
      soleValidatorSet = .ok () := by decide +kernel
  intro before event after heq
  rcases hstates before (by simp [heq]) with ⟨hpending, hheader⟩
  -- the node is started once
  have honce : event = .start →
      before.foldl (Synchronizer.step .transparent sampleChain sampleOptions) init = init := by
    rintro rfl
    cases before with
    | nil => rfl
    | cons first before =>
        have hrest : chainEvents pendingGenesis ++
            chainEvents (pendingCarrying pendingGenesis.consensus) = before ++ .start :: after :=
          (List.cons.inj heq).2
        have hmem : Event.start ∈ before ++ .start :: after := by simp
        rw [← hrest] at hmem
        simp [chainEvents] at hmem
  generalize before.foldl (Synchronizer.step .transparent sampleChain sampleOptions) init = s
    at hpending hheader honce
  have hready : ∀ bodyFirst write,
      s.written .transparent sampleChain sampleOptions (.chain bodyFirst) = some write →
      s.isReady = true := by
    intro bodyFirst write hwritten
    by_contra hnot
    rw [written, if_neg hnot] at hwritten
    cases hwritten
  refine ⟨?_, ?_, ?_, ?_⟩
  · rintro bodyFirst h body rfl hpos hwritten
    have hstored := hheader (hready bodyFirst _ hwritten)
    generalize hheight : h + 1 = height at hwritten
    rcases written_chain hwritten with ⟨pending, place, place', hat, hwrites⟩
    have hblock : height = pending.height ∧ body = pending.block.body := by
      cases hwrites with
      | _ => exact ⟨rfl, rfl⟩
    rcases hblock with ⟨rfl, rfl⟩
    rcases hpending _ hat with hfirst | ⟨hsecond, hset⟩
    · rw [show pending = pendingGenesis from hfirst] at hheight
      change h + 1 = 1 at hheight
      omega
    · rw [show pending = pendingCarrying _ from hsecond] at hheight ⊢
      obtain rfl : h = 1 := Nat.succ.inj hheight
      exact ⟨sampleGenesis.header, soleValidatorSet, hstored,
        Blockchain.validatorSetOf_eq_ok.mpr ⟨sampleGenesis.header, hstored, hset⟩, hvalid⟩
  · rintro bodyFirst header rfl hwritten stored hstored
    have hgenesis := hheader (hready bodyFirst _ hwritten)
    generalize (1 : Nat) = height at hwritten
    rcases written_chain hwritten with ⟨pending, place, place', hat, hwrites⟩
    have hroot : header.nextValidatorSetRoot = sampleGenesis.header.nextValidatorSetRoot := by
      have hblock : header = pending.block.header := by
        cases hwrites with
        | _ => rfl
      rcases hpending _ hat with hfirst | ⟨hsecond, -⟩
      · rw [hblock, show pending = pendingGenesis from hfirst]
        rfl
      · rw [hblock, show pending = pendingCarrying _ from hsecond]
        rfl
    obtain rfl := Option.some.inj (hgenesis.symm.trans hstored)
    exact hroot
  · intro validatorSet root stored hevent _ hstored
    rcases hevent with rfl | ⟨rfl, -⟩
    · have hmem : Event.setValidatorSet validatorSet ∈ carryingEvents pendingGenesis.consensus := by
        simp [heq]
      simp [carryingEvents, genesisEvents, chainEvents] at hmem
    · rw [honce rfl] at hstored
      cases hstored
  · rintro rfl
    rw [honce rfl]
    simp [init, new]

theorem consensus_servable_carrying :
    (Synchronizer.run .transparent sampleChain sampleOptions init
      (carryingEvents pendingGenesis.consensus)).store.height = 2 ∧
    Throughout (Synchronizer.step .transparent sampleChain sampleOptions) init
      (carryingEvents pendingGenesis.consensus) (Servable .transparent sampleChain) :=
  ⟨by decide +kernel, consensus_servable .transparent sampleChain sampleOptions _
    (catchesUp_carryingEvents _) proofGuarded_carryingEvents⟩

/-- A certificate that nobody has signed, for no block. -/
def emptyCertificate : Consensus := ⟨⟨0, 1, Hash.zero⟩, []⟩

/-- A block is chained that carries it, and it is served for the block below. -/
theorem serves_unsigned :
    (∀ event ∈ carryingEvents emptyCertificate, event.catchesUp = false) ∧
    ¬ Servable .transparent sampleChain (Synchronizer.run .transparent sampleChain sampleOptions
      init (carryingEvents emptyCertificate)) := by
  let s := Synchronizer.run .transparent sampleChain sampleOptions init
    (carryingEvents emptyCertificate)
  -- the run is evaluated once
  obtain ⟨hidle, hbody, hheader⟩ :
      (s.isReady = true ∧ s.chainingWrites = false ∧ s.catchUpWrites = false ∧
        1 ≤ s.store.getHeight) ∧
      (s.store.getHeight = 2 ∧
        (s.store.body 2).map (fun body => body.lastBlockConsensus) = some emptyCertificate) ∧
      s.store.header 1 = some sampleGenesis.header := by decide +kernel
  have hne : emptyCertificate.vote.blockHash ≠ sampleGenesis.header.hash .transparent := by
    decide +kernel
  refine ⟨catchesUp_carryingEvents _, ?_⟩
  change ¬ Servable .transparent sampleChain s
  generalize s = s at hidle hbody hheader
  rcases hidle with ⟨hready, hchaining, hcatchUp, hpos⟩
  intro hservable
  obtain ⟨consensus, hconsensus, header, validatorSet, hstored, -, hvalid⟩ :=
    hservable hready hchaining hcatchUp 1 le_rfl hpos
  obtain rfl := Option.some.inj (hheader.symm.trans hstored)
  have hserved : consensus = emptyCertificate := by
    rcases Option.map_eq_some_iff.mp hbody.2 with ⟨body, hbodyStored, hlast⟩
    simp only [Blockchain.consensusOf, hbody.1, BlockStore.getBody, hbodyStored] at hconsensus
    rw [← hlast]
    exact (Except.ok.inj hconsensus).symm
  subst hserved
  exact hne (Consensus.validate_eq_ok_iff.mp hvalid).1

end Sample

end Synchronizer

end ChainCore
end UniqysKit
