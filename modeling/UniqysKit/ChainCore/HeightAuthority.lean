import UniqysKit.Blockchain.Commitment
import UniqysKit.ChainCore.CommittedChain

/-!
# By whose authority the height grows

A height should be raised only with a certificate of the validators that the header before names.
`chainPendingBlock` looks these up; `catchUpAsync` takes the validator set from the remote node, and
its header writes can change what the other has looked up.  `Guarded` lists what must not happen at
a step; `raises_authorised` is for the runs in which it does not.
-/

namespace UniqysKit
namespace ChainCore

open Library

/-! ## Places -/

/-- The height was compared, and the block is not chained yet. -/
def Chaining.checked : Chaining → Bool
  | .readHeight => false
  | .update .cacheHeight => false
  | .update .setLastConsensus => false
  | .propagateBlock => false
  | _ => true

/-- The certificate was validated, and the block is not chained yet. -/
def Chaining.certified : Chaining → Bool
  | .takeWriteLock => true
  | .recheckHeight => true
  | .setHeaderAndBody => true
  | .setBody => true
  | .setHeader => true
  | .update .readHeight => true
  | .update .setHeight => true
  | _ => false

/-- The header is written, and the height is not raised yet. -/
def Chaining.commits : Chaining → Bool
  | .setBody => true
  | .update .readHeight => true
  | .update .setHeight => true
  | _ => false

/-- The root with which the validator set is looked up. -/
def Chaining.root : Chaining → Option Hash
  | .getValidatorSet root => some root
  | _ => none

/-- The header that the catch up is for, once its certificate was validated. -/
def CatchUp.consented : CatchUp → Option ConsentedHeader
  | .readHeight _ => none
  | .fetchConsentedHeader => none
  | .setLastHeader consented => some consented
  | .readUnknown consented _ => some consented
  | .fetchHeaders consented _ _ _ => some consented
  | .setHeader consented _ _ => some consented
  | .readKnown consented => some consented
  | .fetchLoop consented _ _ => some consented
  | .takeWriteLock consented => some consented
  | .update consented _ => some consented

/-- That header is written. -/
def CatchUp.stored : CatchUp → Bool
  | .setLastHeader _ => false
  | _ => true

/-- The height of the lowest header that is written. -/
def CatchUp.lowest : CatchUp → Option Nat
  | .readUnknown _ last => some last.height
  | .fetchHeaders _ last _ _ => some last.height
  | .setHeader _ header _ => some (header.height + 1)
  | _ => none

theorem Chaining.writes_of_commits {place : Chaining} (h : place.commits = true) :
    place.writes = true := by
  cases place with
  | update stage => rfl
  | setBody => rfl
  | _ => cases h

theorem Chaining.checked_of_certified {place : Chaining} (h : place.certified = true) :
    place.checked = true := by
  cases place with
  | update stage => cases stage with
    | readHeight => rfl
    | setHeight => rfl
    | cacheHeight => cases h
    | setLastConsensus => cases h
  | readHeight => cases h
  | propagateBlock => cases h
  | _ => rfl

namespace Synchronizer

section Definitions

variable (c : Crypto) (blockchain : Blockchain) (options : SynchronizerOptions)

/-- The root of the validator set of a height, by the header before it. -/
def NamesRoot (store : BlockStore) (height : Nat) (root : Hash) : Prop :=
  if height = 1 then root = blockchain.genesisBlock.header.nextValidatorSetRoot
  else ∃ header, store.header (height - 1) = some header ∧ header.nextValidatorSetRoot = root

/-- A certificate for the header by more than two thirds of the validators with the root. -/
def Certifies (consensus : Consensus) (header : BlockHeader) (root : Hash) : Prop :=
  ∃ validatorSet : ValidatorSet, validatorSet.hash c = .ok root ∧
    consensus.vote.blockHash = header.hash c ∧
    validatorSet.Quorum (consensus.signers c (blockchain.genesisHash c)).toFinset

/-- The certificate with which `updateHeight` raises the height at the event. -/
def raising (s : Synchronizer) : Event → Option Consensus
  | .chain _ =>
      match s.chaining with
      | some (pending, .update .setHeight) => some pending.consensus
      | _ => none
  | .catchUpNext _ =>
      match s.catchUp with
      | some (.update consented .setHeight) => some consented.consensus
      | _ => none
  | _ => none

/-- If the event raises the height, then with a certificate for the header that is stored at the new
height, by the validators that the header stored before it names. -/
def RaiseAuthorised (s : Synchronizer) (event : Event) : Prop :=
  s.store.height < (s.step c blockchain options event).store.height →
    ∃ consensus header root, s.raising event = some consensus ∧
      (s.step c blockchain options event).store.header
        (s.step c blockchain options event).store.height = some header ∧
      NamesRoot blockchain (s.step c blockchain options event).store
        (s.step c blockchain options event).store.height root ∧
      Certifies c blockchain consensus header root

/-- Nobody has signed the certificate twice, and the powers of the set are added without rounding. -/
structure Counted (consensus : Consensus) (validatorSet : ValidatorSet) : Prop where
  nodup : (consensus.signers c (blockchain.genesisHash c)).Nodup
  sum : validatorSet.powerSum ≤ 2 ^ 53

/-- A header of the remote node that may be stored: it is there already, or it is above the height,
is not the one of a block that is being chained, and is the genesis header if its height is 1. -/
def Fits (s : Synchronizer) (header : BlockHeader) : Prop :=
  s.store.header header.height = some header ∨ (s.store.height < header.height ∧
    (∀ entry ∈ s.chaining, entry.2.commits = true → entry.1.height ≠ header.height) ∧
    (header.height = 1 → header = blockchain.genesisBlock.header))

/-- What must hold at a step:
the signatures of a block that is validated against a stored set are counted;
the header of an answer that `catchUpAsync` is about to store fits;
and when `catchUpAsync` is about to raise the height, the validator set that the remote node has
sent is the one that the stored header before names, and its signatures are counted. -/
structure Guarded (s : Synchronizer) (event : Event) : Prop where
  chained : ∀ bodyFirst pending root validatorSet, event = .chain bodyFirst →
    s.chaining = some (pending, .getValidatorSet root) →
    s.store.validatorSet root = some validatorSet →
    Counted c blockchain pending.consensus validatorSet
  headers : event = .catchUpNext .done → ∀ place ∈ s.catchUp, ∀ header ∈ place.header,
    Fits blockchain s header
  raised : event = .catchUpNext .done → ∀ consented,
    s.catchUp = some (.update consented .setHeight) →
      (∃ root, NamesRoot blockchain s.store consented.height root ∧
        consented.validatorSet.hash c = .ok root) ∧
      Counted c blockchain consented.consensus consented.validatorSet

/-- What is known of the pending block where `chainPendingBlock` is. -/
structure Justified (store : BlockStore) (pending : Pending) (place : Chaining) : Prop where
  due : place.checked = true → pending.height ≤ store.height + 1
  named : ∀ root, place = .getValidatorSet root → pending.height = store.height + 1 →
    NamesRoot blockchain store pending.height root
  certified : place.certified = true → ∃ root,
    (pending.height = store.height + 1 → NamesRoot blockchain store pending.height root) ∧
      Certifies c blockchain pending.consensus pending.block.header root
  committed : place.commits = true → store.header pending.height = some pending.block.header

/-- The header that `catchUpAsync` is for was validated with the set it came with; it is stored,
unless a block of its height is chained; and the headers written after it are below it. -/
structure Fetched (s : Synchronizer) (place : CatchUp) : Prop where
  valid : ∀ consented ∈ place.consented,
    consented.consensus.validate c (consented.header.hash c) (blockchain.genesisHash c)
      consented.validatorSet = .ok ()
  stored : ∀ consented ∈ place.consented, place.stored = true →
    consented.height ≤ s.store.height ∨ s.store.header consented.height = some consented.header ∨
      ∃ entry ∈ s.chaining, entry.2.commits = true ∧ entry.1.height = consented.height
  lowest : ∀ consented ∈ place.consented, ∀ h ∈ place.lowest, h ≤ consented.height

/-- The invariant of guarded runs. -/
structure Accountable (s : Synchronizer) : Prop where
  locked : s.Locked
  validatorSets : ∀ root validatorSet, s.store.validatorSet root = some validatorSet →
    validatorSet.hash c = .ok root
  rooted : s.isReady = true → s.store.height = 0 →
    (∀ entry ∈ s.chaining, entry.2.commits = false) →
    s.store.header 1 = some blockchain.genesisBlock.header
  chaining : ∀ entry ∈ s.chaining, Justified c blockchain s.store entry.1 entry.2
  catchUp : ∀ place ∈ s.catchUp, Fetched c blockchain s place

end Definitions

section Frames

variable {c : Crypto} {blockchain : Blockchain} {options : SynchronizerOptions} {s : Synchronizer}
  {store store' : BlockStore} {pending : Pending} {place : Chaining}

theorem NamesRoot.congr {height : Nat} {root : Hash} (h : NamesRoot blockchain store height root)
    (hheader : store'.header (height - 1) = store.header (height - 1)) :
    NamesRoot blockchain store' height root := by
  unfold NamesRoot at h ⊢
  rwa [hheader]

/-- A store in which the height did not fall, and in which headers that matter to the block are as
they were. -/
theorem Justified.frame (h : Justified c blockchain store pending place)
    (hheight : store.height ≤ store'.height)
    (hbefore : store'.height = store.height →
      store'.header store.height = store.header store.height)
    (hcommitted : place.commits = true →
      store'.header pending.height = store.header pending.height) :
    Justified c blockchain store' pending place := by
  -- where the height has grown, the block is not next any more
  have hname : ∀ root, pending.height ≤ store.height + 1 →
      (pending.height = store.height + 1 → NamesRoot blockchain store pending.height root) →
      pending.height = store'.height + 1 → NamesRoot blockchain store' pending.height root := by
    intro root hdue hnamed hnext
    have hsame : store'.height = store.height := by omega
    refine (hnamed (by omega)).congr ?_
    rw [hnext, hsame]
    exact hbefore hsame
  refine ⟨?_, ?_, ?_, ?_⟩
  · intro hplace
    exact (h.due hplace).trans (Nat.succ_le_succ hheight)
  · rintro root rfl
    exact hname root (h.due rfl) (h.named root rfl)
  · intro hplace
    rcases h.certified hplace with ⟨root, hnamed, hcertifies⟩
    exact ⟨root, hname root (h.due (Chaining.checked_of_certified hplace)) hnamed, hcertifies⟩
  · intro hplace
    rw [hcommitted hplace]
    exact h.committed hplace

/-- What the catch up has stored stays stored, or its height is reached. -/
theorem Fetched.frame {s' : Synchronizer} {place : CatchUp} (h : Fetched c blockchain s place)
    (hheight : s.store.height ≤ s'.store.height)
    (hstored : ∀ height header, s.store.header height = some header →
      height ≤ s'.store.height ∨ s'.store.header height = some header ∨
        ∃ entry ∈ s'.chaining, entry.2.commits = true ∧ entry.1.height = height)
    (hcommits : ∀ entry ∈ s.chaining, entry.2.commits = true →
      entry.1.height ≤ s'.store.height ∨
        ∃ entry' ∈ s'.chaining, entry'.2.commits = true ∧ entry'.1.height = entry.1.height) :
    Fetched c blockchain s' place := by
  refine ⟨h.valid, ?_, h.lowest⟩
  intro consented hconsented hplace
  rcases h.stored consented hconsented hplace with hle | hheader | ⟨entry, hentry, hcommit, heq⟩
  · exact .inl (hle.trans hheight)
  · exact hstored _ _ hheader
  · rw [← heq]
    rcases hcommits entry hentry hcommit with hle | hother
    · exact .inl hle
    · exact .inr (.inr hother)

end Frames

section Steps

variable {c : Crypto} {blockchain : Blockchain} {options : SynchronizerOptions} {s : Synchronizer}
  {event : Event}

/-- Under the lock a header that was written is followed by raising the height. -/
theorem Locked.commits_of_goes (hlocked : s.Locked) {pending : Pending} {place place' : Chaining}
    (hat : s.chaining = some (pending, place)) (hgoes : place.Goes c blockchain s pending place')
    (hcommits : place.commits = true) : place'.commits = true := by
  cases hgoes with
  | higher _ => rfl
  | lower hheight =>
      have hget := hlocked.getHeight_of_chaining hat rfl rfl
      have hnext : pending.height = s.store.height + 1 := hlocked.chaining _ hat
      omega
  | _ => cases hcommits

/-- `chainPendingBlock` goes on with what is known of the pending block. -/
theorem Accountable.justified_goes (hacc : s.Accountable c blockchain) (hready : s.isReady = true)
    {pending : Pending} {place place' : Chaining} (hat : s.chaining = some (pending, place))
    (hguard : ∀ root validatorSet, place = .getValidatorSet root →
      s.store.validatorSet root = some validatorSet →
      Counted c blockchain pending.consensus validatorSet)
    (hgoes : place.Goes c blockchain s pending place') :
    Justified c blockchain s.store pending place' := by
  have hbefore := hacc.chaining _ hat
  cases hgoes with
  | check hheight _ =>
      refine ⟨?_, nofun, nofun, nofun⟩
      intro _
      -- the height that was read is not ahead of the stored one
      rw [hheight]
      exact Nat.succ_le_succ hacc.locked.le
  | readLock _ => exact ⟨fun _ => hbefore.due rfl, nofun, nofun, nofun⟩
  | @header header hheader =>
      refine ⟨fun _ => hbefore.due rfl, ?_, nofun, nofun⟩
      rintro root ⟨⟩ hnext
      unfold Blockchain.definingHeight at hheader
      unfold NamesRoot
      split
      · -- the first block's validators are named by the genesis header
        rename_i hone
        rw [if_pos hone] at hheader
        have hrooted := hacc.rooted hready (by omega) (by
          rintro entry hentry
          obtain rfl := Option.mem_unique hentry hat
          rfl)
        rw [hrooted] at hheader
        rw [← Option.some.inj hheader]
      · rename_i hone
        rw [if_neg hone] at hheader
        exact ⟨header, hheader, rfl⟩
  | @validate root validatorSet hstored hvalid =>
      refine ⟨fun _ => hbefore.due rfl, nofun, ?_, nofun⟩
      intro _
      -- the certificate was validated with the set that is stored under the named root
      refine ⟨root, hbefore.named root rfl, validatorSet, hacc.validatorSets root validatorSet hstored,
        ?_, ?_⟩
      · exact (Consensus.validate_eq_ok_iff.mp hvalid).1
      · have hcounted := hguard root validatorSet rfl hstored
        exact Consensus.quorum_of_validate hcounted.sum hcounted.nodup hvalid
  | writeLock _ => exact ⟨fun _ => hbefore.due rfl, nofun, fun _ => hbefore.certified rfl, nofun⟩
  | recheck _ => exact ⟨fun _ => hbefore.due rfl, nofun, fun _ => hbefore.certified rfl, nofun⟩
  | higher _ =>
      exact ⟨fun _ => hbefore.due rfl, nofun, fun _ => hbefore.certified rfl,
        fun _ => hbefore.committed rfl⟩
  | late _ => exact ⟨nofun, nofun, nofun, nofun⟩
  | lower _ => exact ⟨nofun, nofun, nofun, nofun⟩

theorem Accountable.chainGoes (hacc : s.Accountable c blockchain) (hready : s.isReady = true)
    {pending : Pending} {place place' : Chaining} (hat : s.chaining = some (pending, place))
    (hguard : ∀ root validatorSet, place = .getValidatorSet root →
      s.store.validatorSet root = some validatorSet →
      Counted c blockchain pending.consensus validatorSet)
    (hgoes : place.Goes c blockchain s pending place') :
    ({ s with chaining := some (pending, place') } : Synchronizer).Accountable c blockchain := by
  refine ⟨hacc.locked.chainGoes hat hgoes, hacc.validatorSets, ?_, ?_, ?_⟩
  · intro _ hzero hnot
    refine hacc.rooted hready hzero ?_
    intro entry hentry
    obtain rfl := Option.mem_unique hentry hat
    -- a place that commits goes on to one that commits, and there is none now
    by_contra hcommits
    rw [Bool.not_eq_false] at hcommits
    have hnot' := hnot _ rfl
    rw [hacc.locked.commits_of_goes hat hgoes hcommits] at hnot'
    cases hnot'
  · rintro entry ⟨⟩
    exact hacc.justified_goes hready hat hguard hgoes
  · intro place'' hplace
    refine (hacc.catchUp place'' hplace).frame le_rfl (fun _ _ hheader => .inr (.inl hheader)) ?_
    intro entry hentry hcommits
    obtain rfl := Option.mem_unique hentry hat
    exact .inr ⟨_, rfl, hacc.locked.commits_of_goes hat hgoes hcommits, rfl⟩

/-- A write of `chainPendingBlock` that leaves the headers and the height alone. -/
theorem Accountable.setChaining (hacc : s.Accountable c blockchain) {pending : Pending}
    {place place' : Chaining} {store : BlockStore} (hat : s.chaining = some (pending, place))
    (hlocked : ({ s with store, chaining := some (pending, place') } : Synchronizer).Locked)
    (hheight : store.height = s.store.height) (hheader : store.header = s.store.header)
    (hsets : store.validatorSet = s.store.validatorSet)
    (hcommits : place'.commits = place.commits) (hcertified : place'.certified = place.certified)
    (hchecked : place'.checked = place.checked) (hnamed : ∀ root, place' ≠ .getValidatorSet root) :
    ({ s with store, chaining := some (pending, place') } : Synchronizer).Accountable
      c blockchain := by
  have hbefore := hacc.chaining _ hat
  -- the headers are the same, so a height still names the same validators
  have hname : ∀ root, NamesRoot blockchain s.store pending.height root →
      NamesRoot blockchain store pending.height root := fun root h => h.congr (by rw [hheader])
  refine ⟨hlocked, ?_, ?_, ?_, ?_⟩
  · intro root validatorSet hstored
    change store.validatorSet root = some validatorSet at hstored
    rw [hsets] at hstored
    exact hacc.validatorSets root validatorSet hstored
  · intro hready hzero hnot
    change store.header 1 = _
    rw [hheader]
    refine hacc.rooted hready (hheight ▸ hzero) ?_
    intro entry hentry
    obtain rfl := Option.mem_unique hentry hat
    exact hcommits ▸ hnot _ rfl
  · rintro entry ⟨⟩
    refine ⟨?_, ?_, ?_, ?_⟩
    · intro hplace
      change pending.height ≤ store.height + 1
      rw [hheight]
      exact hbefore.due (hchecked ▸ hplace)
    · intro root hplace
      exact absurd hplace (hnamed root)
    · intro hplace
      rcases hbefore.certified (hcertified ▸ hplace) with ⟨root, hnamed', hcertifies⟩
      refine ⟨root, fun hnext => hname root (hnamed' ?_), hcertifies⟩
      change pending.height = store.height + 1 at hnext
      rwa [hheight] at hnext
    · intro hplace
      change store.header pending.height = _
      rw [hheader]
      exact hbefore.committed (hcommits ▸ hplace)
  · intro place'' hplace
    refine (hacc.catchUp place'' hplace).frame hheight.ge ?_ ?_
    · intro height header hstored
      change height ≤ store.height ∨ store.header height = some header ∨ _
      rw [hheader]
      exact .inr (.inl hstored)
    · intro entry hentry hplace'
      obtain rfl := Option.mem_unique hentry hat
      -- the block that commits is the pending one of before
      exact .inr ⟨_, rfl, hcommits ▸ hplace', rfl⟩

/-- The header of the pending block is written. -/
theorem Accountable.writeHeader (hacc : s.Accountable c blockchain) {pending : Pending}
    {place place' : Chaining} (hat : s.chaining = some (pending, place))
    (hlocked : ({ s with
      store := s.store.setHeader pending.height pending.block.header
      chaining := some (pending, place') } : Synchronizer).Locked)
    (hnext : pending.height = s.store.height + 1) (hcertified : place.certified = true)
    (hnot : place.commits = false) (hcommits : place'.commits = true) :
    ({ s with
      store := s.store.setHeader pending.height pending.block.header
      chaining := some (pending, place') } : Synchronizer).Accountable c blockchain := by
  have hbefore := hacc.chaining _ hat
  refine ⟨hlocked, hacc.validatorSets, ?_, ?_, ?_⟩
  · intro _ _ hnone
    have hnone' := hnone _ rfl
    rw [hcommits] at hnone'
    cases hnone'
  · rintro entry ⟨⟩
    refine ⟨fun _ => hnext.le, ?_, ?_, ?_⟩
    · rintro root rfl
      cases hcommits
    · intro _
      rcases hbefore.certified hcertified with ⟨root, hnamed, hcertifies⟩
      -- the validators are named by the header below, which stays
      have hne : pending.height - 1 ≠ pending.height := by omega
      refine ⟨root, fun _ => (hnamed hnext).congr ?_, hcertifies⟩
      exact BlockStore.header_setHeader_of_ne hne
    · intro _
      exact BlockStore.header_setHeader
  · intro place'' hplace
    refine (hacc.catchUp place'' hplace).frame le_rfl ?_ ?_
    · intro height header hheader
      -- a header that `catchUpAsync` has stored there gives way to the certified one
      by_cases hsame : height = pending.height
      · subst hsame
        exact .inr (.inr ⟨_, rfl, hcommits, rfl⟩)
      · exact .inr (.inl ((BlockStore.header_setHeader_of_ne hsame).trans hheader))
    · intro entry hentry hplace'
      obtain rfl := Option.mem_unique hentry hat
      rw [hnot] at hplace'
      cases hplace'

theorem Accountable.chainWrites (hacc : s.Accountable c blockchain) {pending : Pending}
    {place place' : Chaining} {write : Write} (hat : s.chaining = some (pending, place))
    (hwrites : place.Writes pending write place') :
    ({ s with store := write.apply s.store, chaining := some (pending, place') } :
      Synchronizer).Accountable c blockchain := by
  have hlocked := hacc.locked.chainWrites hat hwrites
  have hheight := hacc.locked.chaining _ hat
  cases hwrites with
  | headerFirst => exact hacc.writeHeader hat hlocked hheight rfl rfl rfl
  | header => exact hacc.writeHeader hat hlocked hheight rfl rfl rfl
  | bodyFirst => exact hacc.setChaining hat hlocked rfl rfl rfl rfl rfl rfl nofun
  | body => exact hacc.setChaining hat hlocked rfl rfl rfl rfl rfl rfl nofun
  | cachedHeight => exact hacc.setChaining hat hlocked rfl rfl rfl rfl rfl rfl nofun
  | lastConsensus => exact hacc.setChaining hat hlocked rfl rfl rfl rfl rfl rfl nofun
  -- the pending block is the next one, and its header is the certified one from before
  | height =>
      have hnext : pending.height = s.store.height + 1 := hheight
      refine ⟨hlocked, hacc.validatorSets, ?_, ?_, ?_⟩
      · intro _ hzero _
        change pending.height = 0 at hzero
        omega
      · rintro entry ⟨⟩
        exact ⟨nofun, nofun, nofun, nofun⟩
      · intro place'' hplace
        refine (hacc.catchUp place'' hplace).frame ?_ (fun _ _ hheader => .inr (.inl hheader)) ?_
        · change s.store.height ≤ pending.height
          omega
        · intro entry hentry _
          obtain rfl := Option.mem_unique hentry hat
          exact .inl le_rfl

/-! ### Catching up -/

/-- What was fetched is known where `catchUpAsync` goes on to. -/
theorem Fetched.goes {place next : CatchUp} (hfetched : Fetched c blockchain s place)
    (hgoes : place.Goes c blockchain s (some next)) : Fetched c blockchain s next := by
  generalize hsome : some next = result at hgoes
  cases hgoes with
  | consented hvalid =>
      cases hsome
      refine ⟨?_, nofun, nofun⟩
      rintro consented ⟨⟩
      exact hvalid
  | above _ => cases hsome; exact ⟨hfetched.valid, hfetched.stored, hfetched.lowest⟩
  -- the next header is the parent that the one before it names
  | headers =>
      rcases nextHeader_cases c hsome.symm with rfl | ⟨header, rest, rfl, hlinked, -⟩
      · exact ⟨hfetched.valid, hfetched.stored, hfetched.lowest⟩
      · refine ⟨hfetched.valid, hfetched.stored, ?_⟩
        rintro consented ⟨⟩ h ⟨⟩
        rw [hlinked]
        exact hfetched.lowest _ rfl _ rfl
  | fetch => cases hsome; exact ⟨nofun, nofun, nofun⟩
  | bottom _ => cases hsome; exact ⟨hfetched.valid, hfetched.stored, nofun⟩
  | split => cases hsome; exact ⟨hfetched.valid, hfetched.stored, nofun⟩
  | job => cases hsome; exact ⟨hfetched.valid, hfetched.stored, nofun⟩
  | loaded => cases hsome; exact ⟨hfetched.valid, hfetched.stored, nofun⟩
  | writeLock _ _ => cases hsome; exact ⟨hfetched.valid, hfetched.stored, nofun⟩
  | higher _ => cases hsome; exact ⟨hfetched.valid, hfetched.stored, nofun⟩
  | known => cases hsome
  | refused => cases hsome
  | failed => cases hsome
  | lower => cases hsome

/-- A header of the catch up that fits is written. -/
theorem Accountable.catchUpHeader (hacc : s.Accountable c blockchain) {height : Nat}
    {header : BlockHeader} {next : Option CatchUp}
    (hlocked : ({ s with store := s.store.setHeader height header, catchUp := next } :
      Synchronizer).Locked)
    (hheight : header.height = height) (hguard : Fits blockchain s header)
    (hnext : ∀ place ∈ next, Fetched c blockchain
      { s with store := s.store.setHeader height header, catchUp := next } place) :
    ({ s with store := s.store.setHeader height header, catchUp := next } :
      Synchronizer).Accountable c blockchain := by
  subst hheight
  refine ⟨hlocked, hacc.validatorSets, ?_, ?_, hnext⟩
  · intro hready hzero hnot
    have hrooted := hacc.rooted hready hzero hnot
    change (s.store.setHeader header.height header).header 1 = _
    rcases hguard with hsame | ⟨-, -, hone⟩
    · rw [BlockStore.setHeader_eq_self hsame]
      exact hrooted
    · by_cases hheight : header.height = 1
      · rw [hheight, BlockStore.header_setHeader, hone hheight]
      · rw [BlockStore.header_setHeader_of_ne (Ne.symm hheight)]
        exact hrooted
  · intro entry hentry
    have hbefore := hacc.chaining entry hentry
    -- the header goes above the tip and not in the place of a committing one
    change Justified c blockchain (s.store.setHeader header.height header) entry.1 entry.2
    rcases hguard with hsame | ⟨habove, hcommits, -⟩
    · rw [BlockStore.setHeader_eq_self hsame]
      exact hbefore
    · refine hbefore.frame le_rfl (fun _ => ?_) (fun hplace => ?_)
      · exact BlockStore.header_setHeader_of_ne habove.ne
      · exact BlockStore.header_setHeader_of_ne (hcommits entry hentry hplace)

/-- A write of the catch up that leaves the headers and the height alone. -/
theorem Accountable.setCatchUp (hacc : s.Accountable c blockchain) {store : BlockStore}
    {next : Option CatchUp} (hlocked : ({ s with store, catchUp := next } : Synchronizer).Locked)
    (hheight : store.height = s.store.height) (hheader : store.header = s.store.header)
    (hsets : store.validatorSet = s.store.validatorSet)
    (hnext : ∀ place ∈ next, Fetched c blockchain s place) :
    ({ s with store, catchUp := next } : Synchronizer).Accountable c blockchain := by
  refine ⟨hlocked, ?_, ?_, ?_, ?_⟩
  · intro root validatorSet hstored
    change store.validatorSet root = some validatorSet at hstored
    rw [hsets] at hstored
    exact hacc.validatorSets root validatorSet hstored
  · intro hready hzero hnot
    change store.header 1 = _
    rw [hheader]
    exact hacc.rooted hready (hheight ▸ hzero) hnot
  · intro entry hentry
    exact (hacc.chaining entry hentry).frame hheight.ge (fun _ => by rw [hheader])
      (fun _ => by rw [hheader])
  · intro place hplace
    refine (hnext place hplace).frame hheight.ge ?_ ?_
    · intro height header hstored
      change height ≤ store.height ∨ store.header height = some header ∨ _
      rw [hheader]
      exact .inr (.inl hstored)
    · intro entry hentry hcommits
      exact .inr ⟨entry, hentry, hcommits, rfl⟩

theorem Accountable.catchUpWrites (hacc : s.Accountable c blockchain) {place : CatchUp}
    {next : Option CatchUp} {write : Write} (hat : s.catchUp = some place)
    (hguard : ∀ header ∈ place.header, Fits blockchain s header)
    (hwrites : place.Writes c write next) :
    ({ s with store := write.apply s.store, catchUp := next } : Synchronizer).Accountable
      c blockchain := by
  have hlocked := hacc.locked.catchUpWrites hat hwrites
  have hfetched := hacc.catchUp place hat
  have hheight := hacc.locked.catchUp place hat
  cases hwrites with
  | @last consented =>
      refine hacc.catchUpHeader hlocked rfl (hguard _ rfl) ?_
      rintro place' ⟨⟩
      refine ⟨hfetched.valid, ?_, ?_⟩
      · rintro _ ⟨⟩ _
        exact .inr (.inl BlockStore.header_setHeader)
      · rintro _ ⟨⟩ h ⟨⟩
        exact le_rfl
  | @header consented header rest =>
      refine hacc.catchUpHeader hlocked rfl (hguard _ rfl) ?_
      have hbelow : header.height + 1 ≤ consented.height := hfetched.lowest _ rfl _ rfl
      -- the header that the catch up is for is above the one that is written
      have hstored : consented.height ≤ s.store.height ∨
          (s.store.setHeader header.height header).header consented.height =
            some consented.header ∨
          ∃ entry ∈ s.chaining, entry.2.commits = true ∧ entry.1.height = consented.height := by
        have hne : consented.height ≠ header.height := by omega
        rw [BlockStore.header_setHeader_of_ne hne]
        exact hfetched.stored consented rfl rfl
      intro place' hplace
      rcases nextHeader_cases c hplace with rfl | ⟨header', rest', rfl, hlinked, -⟩
      · refine ⟨hfetched.valid, ?_, ?_⟩
        · rintro _ ⟨⟩ _
          exact hstored
        · rintro _ ⟨⟩ h ⟨⟩
          omega
      · refine ⟨hfetched.valid, ?_, ?_⟩
        · rintro _ ⟨⟩ _
          exact hstored
        · rintro _ ⟨⟩ h ⟨⟩
          omega
  | body =>
      refine hacc.setCatchUp hlocked rfl rfl rfl ?_
      rintro place' ⟨⟩
      exact ⟨hfetched.valid, hfetched.stored, nofun⟩
  | @height consented =>
      have hlt : s.store.height < consented.height := hheight
      refine ⟨hlocked, hacc.validatorSets, ?_, ?_, ?_⟩
      · intro _ hzero _
        change consented.height = 0 at hzero
        omega
      · intro entry hentry
        have hwrites : ¬ entry.2.writes = true := by
          intro hwrites
          exact absurd (hacc.locked.exclusive entry hentry _ hat hwrites) nofun
        refine (hacc.chaining entry hentry).frame hlt.le ?_ ?_
        · intro hsame
          change consented.height = s.store.height at hsame
          omega
        · intro hcommits
          exact absurd (Chaining.writes_of_commits hcommits) hwrites
      · rintro place' ⟨⟩
        refine ⟨hfetched.valid, ?_, nofun⟩
        rintro _ ⟨⟩ _
        exact .inl le_rfl
  | cachedHeight =>
      refine hacc.setCatchUp hlocked rfl rfl rfl ?_
      rintro place' ⟨⟩
      exact ⟨hfetched.valid, hfetched.stored, nofun⟩
  | lastConsensus =>
      refine hacc.setCatchUp hlocked rfl rfl rfl ?_
      rintro place' ⟨⟩

/-! ### All steps -/

theorem accountable_start {store : BlockStore}
    (hsets : ∀ root validatorSet, store.validatorSet root = some validatorSet →
      validatorSet.hash c = .ok root) :
    (start c blockchain store).Accountable c blockchain := by
  have hlocked := @locked_start c blockchain store
  rcases @start_cases c blockchain store with ⟨isReady, store', hstart, hstore⟩
  rw [hstart] at hlocked ⊢
  have hrootedSets : (rootedStore blockchain store).validatorSet = store.validatorSet := by
    unfold rootedStore
    split
    · rfl
    · rfl
  have hrooted : store.height = 0 → (rootedStore blockchain store).header 1 =
      some blockchain.genesisBlock.header := by
    intro hzero
    unfold rootedStore
    rw [if_pos hzero]
    exact @BlockStore.header_setHeader { store with cachedHeight := 0 } 1 _
  have hheight : (rootedStore blockchain store).height = store.height := by
    unfold rootedStore
    split
    · rfl
    · rfl
  refine ⟨hlocked, ?_, ?_, nofun, nofun⟩
  · intro root validatorSet hstored
    rcases hstore with rfl | ⟨root', hroot', rfl⟩
    · exact hsets root validatorSet (hrootedSets ▸ hstored)
    · change Function.update (rootedStore blockchain store).validatorSet root'
        (some blockchain.initialValidatorSet) root = some validatorSet at hstored
      -- the set of the configuration is stored under its own hash
      by_cases hsame : root = root'
      · subst hsame
        rw [Function.update_self] at hstored
        rw [← Option.some.inj hstored]
        exact hroot'
      · rw [Function.update_of_ne hsame, hrootedSets] at hstored
        exact hsets root validatorSet hstored
  · intro _ hzero _
    rcases hstore with rfl | ⟨root, -, rfl⟩
    · exact hrooted (hheight ▸ hzero)
    · exact hrooted (hheight ▸ hzero)

theorem Accountable.step (hacc : s.Accountable c blockchain)
    (hguard : Guarded c blockchain s event) :
    (s.step c blockchain options event).Accountable c blockchain := by
  cases hready : s.isReady with
  | false =>
      -- before `ready` only a start does anything
      unfold Synchronizer.step
      rw [hready]
      split
      · exact accountable_start hacc.validatorSets
      · exact hacc
      · rename_i heq
        cases heq
  | true =>
      have hmoves : s.Moves c blockchain options event (s.step c blockchain options event) :=
        step_moves hready event
      have hlocked : (s.step c blockchain options event).Locked := hacc.locked.step event
      -- what the step does is in `hmoves`, so the state after it is arbitrary from here on
      generalize s.step c blockchain options event = s' at hmoves hlocked ⊢
      cases hmoves with
      | stay => exact hacc
      | start => exact accountable_start hacc.validatorSets
      | queue =>
          refine ⟨hlocked, hacc.validatorSets, hacc.rooted, hacc.chaining, ?_⟩
          intro place hplace
          exact (hacc.catchUp place hplace).frame le_rfl (fun _ _ h => .inr (.inl h))
            fun entry hentry hcommits => .inr ⟨entry, hentry, hcommits, rfl⟩
      | @validatorSet validatorSet root hroot =>
          refine ⟨hlocked, ?_, hacc.rooted, ?_, ?_⟩
          · intro root' validatorSet' hstored
            change Function.update s.store.validatorSet root (some validatorSet) root' =
              some validatorSet' at hstored
            -- a set that is stored under its own hash, or one that was stored before
            by_cases hsame : root' = root
            · subst hsame
              rw [Function.update_self] at hstored
              rw [← Option.some.inj hstored]
              exact hroot
            · rw [Function.update_of_ne hsame] at hstored
              exact hacc.validatorSets root' validatorSet' hstored
          · intro entry hentry
            exact (hacc.chaining entry hentry).frame le_rfl (fun _ => rfl) fun _ => rfl
          · intro place hplace
            exact (hacc.catchUp place hplace).frame le_rfl (fun _ _ h => .inr (.inl h))
              fun entry hentry hcommits => .inr ⟨entry, hentry, hcommits, rfl⟩
      | dequeue hnone =>
          refine ⟨hlocked, hacc.validatorSets, ?_, ?_, ?_⟩
          · intro _ hzero _
            exact hacc.rooted hready hzero (by simp [hnone])
          · rintro entry ⟨⟩
            exact ⟨nofun, nofun, nofun, nofun⟩
          · intro place hplace
            exact (hacc.catchUp place hplace).frame le_rfl (fun _ _ h => .inr (.inl h))
              (by simp [hnone])
      | @chainEnds _ _ pending place _ hat hends =>
          -- a turn does not end between its writes
          have hnot : ∀ entry ∈ s.chaining, entry.2.commits = false := by
            intro entry hentry
            obtain rfl := Option.mem_unique hentry hat
            cases place with
            | update stage => cases hends
            | setBody => cases hends
            | _ => rfl
          refine ⟨hlocked, hacc.validatorSets, ?_, nofun, ?_⟩
          · intro _ hzero _
            exact hacc.rooted hready hzero hnot
          · intro place' hplace
            refine (hacc.catchUp place' hplace).frame le_rfl (fun _ _ h => .inr (.inl h)) ?_
            intro entry hentry hcommits
            rw [hnot entry hentry] at hcommits
            cases hcommits
      | @chainGoes bodyFirst pending place _ hat hgoes =>
          refine hacc.chainGoes hready hat ?_ hgoes
          rintro root validatorSet rfl hstored
          exact hguard.chained bodyFirst pending root validatorSet rfl hat hstored
      | chainWrites _ hat hwrites => exact hacc.chainWrites hat hwrites
      | catchUp _ =>
          refine ⟨hlocked, hacc.validatorSets, hacc.rooted, hacc.chaining, ?_⟩
          rintro place ⟨⟩
          exact ⟨nofun, nofun, nofun⟩
      | catchUpGoes _ hat hgoes =>
          refine ⟨hlocked, hacc.validatorSets, hacc.rooted, hacc.chaining, ?_⟩
          rintro place rfl
          exact ((hacc.catchUp _ hat).goes hgoes).frame le_rfl (fun _ _ h => .inr (.inl h))
            fun entry hentry hcommits => .inr ⟨entry, hentry, hcommits, rfl⟩
      | catchUpWrites hcatches hwritten hat hwrites =>
          refine hacc.catchUpWrites hat ?_ hwrites
          intro header hheader
          -- a place with a header goes on at the answer of the store
          rcases written_catchUp hwritten hcatches with
            ⟨hevent, -⟩ | ⟨i, place, _, _, -, hat', hbody, -⟩
          · exact hguard.headers hevent _ hat header hheader
          · obtain rfl := Option.some.inj (hat.symm.trans hat')
            rw [CatchUp.body_of_header hheader] at hbody
            cases hbody

/-- A start leaves the height alone. -/
theorem height_start (store : BlockStore) : (start c blockchain store).store.height = store.height := by
  have hrooted : (rootedStore blockchain store).height = store.height := by
    unfold rootedStore
    split
    · rfl
    · rfl
  rcases @start_cases c blockchain store with ⟨isReady, store', hstart, hstore⟩
  rw [hstart]
  rcases hstore with rfl | ⟨root, -, rfl⟩
  · exact hrooted
  · exact hrooted

/-- Where the invariant holds, a guarded step raises the height with authority. -/
theorem Accountable.raiseAuthorised (hacc : s.Accountable c blockchain)
    (hguard : Guarded c blockchain s event) :
    RaiseAuthorised c blockchain options s event := by
  unfold RaiseAuthorised
  intro hraise
  cases hready : s.isReady with
  | false =>
      unfold Synchronizer.step at hraise
      rw [hready] at hraise
      split at hraise
      · exact absurd hraise (height_start s.store).not_gt
      · exact absurd hraise (lt_irrefl _)
      · rename_i heq
        cases heq
  | true =>
      have hmoves : s.Moves c blockchain options event (s.step c blockchain options event) :=
        step_moves hready event
      generalize s.step c blockchain options event = s' at hmoves hraise ⊢
      cases hmoves with
      | start => exact absurd hraise (height_start s.store).not_gt
      | @chainWrites _ pending place _ _ _ hat hwrites =>
          have hbefore := hacc.chaining _ hat
          have hnext := hacc.locked.chaining _ hat
          cases hwrites with
          | height =>
              -- the certificate was validated before the lock was taken, and still fits
              rcases hbefore.certified rfl with ⟨root, hnamed, hcertifies⟩
              refine ⟨pending.consensus, pending.block.header, root, ?_, hbefore.committed rfl, ?_,
                hcertifies⟩
              · simp only [raising, hat]
              · exact (hnamed hnext).congr rfl
          | _ => exact absurd hraise (lt_irrefl _)
      | @catchUpWrites _ place _ write hcatches hwritten hat hwrites =>
          have hfetched := hacc.catchUp place hat
          have hlt := hacc.locked.catchUp place hat
          cases hwrites with
          | @height consented =>
              have hevent : event = .catchUpNext .done := by
                rcases written_catchUp hwritten hcatches with ⟨hevent, -⟩ | ⟨_, _, _, _, -, -, -, hbody⟩
                · exact hevent
                · cases hbody
              rcases hguard.raised hevent consented hat with ⟨⟨root, hnamed, hroot⟩, hcounted⟩
              subst hevent
              have hvalid := hfetched.valid consented rfl
              have hnot' : ¬ consented.height ≤ s.store.height := Nat.not_le.mpr hlt
              -- no block is being written while the catch up has the lock
              have hheader : s.store.header consented.height = some consented.header := by
                rcases hfetched.stored consented rfl rfl with hle | hheader | ⟨entry, hentry, hcommits, -⟩
                · exact absurd hle hnot'
                · exact hheader
                · have hfree := hacc.locked.exclusive entry hentry _ hat
                    (Chaining.writes_of_commits hcommits)
                  cases hfree
              refine ⟨consented.consensus, consented.header, root, ?_, hheader, hnamed.congr rfl,
                consented.validatorSet, hroot, ?_, ?_⟩
              · simp only [raising, hat]
              · exact (Consensus.validate_eq_ok_iff.mp hvalid).1
              · exact Consensus.quorum_of_validate hcounted.sum hcounted.nodup hvalid
          | _ => exact absurd hraise (lt_irrefl _)
      | _ => exact absurd hraise (lt_irrefl _)

theorem accountable_init : (init : Synchronizer).Accountable c blockchain :=
  ⟨locked_new rfl, nofun, nofun, nofun, nofun⟩

/-- In every run of a node whose steps are guarded, each rise of the height is authorised by the
validators that the stored header before names. -/
theorem raises_authorised (c : Crypto) (blockchain : Blockchain) (options : SynchronizerOptions)
    (events : List Event)
    (hguarded : Along (Synchronizer.step c blockchain options) init events
      (Guarded c blockchain)) :
    Along (Synchronizer.step c blockchain options) init events
      (RaiseAuthorised c blockchain options) := by
  have hacc : Throughout (Synchronizer.step c blockchain options) init events
      (Accountable c blockchain) :=
    hguarded.throughout accountable_init fun s event hs hguard => hs.step hguard
  exact hacc.along hguarded fun s event hs hguard => hs.raiseAuthorised hguard

end Steps

section Sample

/-- The node starts and chains the genesis block. -/
def genesisEvents : List Event := [.start] ++ chainEvents pendingGenesis

/-- No catch up, and a certificate with one signature. -/
theorem guarded_genesisEvents :
    Along (Synchronizer.step .transparent sampleChain sampleOptions) init genesisEvents
      (Guarded .transparent sampleChain) := by
  have hevents : ∀ event ∈ genesisEvents, event.catchesUp = false := by decide
  have hpending : ∀ before ∈ genesisEvents.inits,
      ∀ entry ∈ (before.foldl (Synchronizer.step .transparent sampleChain sampleOptions)
        init).chaining, entry.1 = pendingGenesis ∧ ∀ root ∈ entry.2.root,
          ∀ validatorSet ∈ (before.foldl (Synchronizer.step .transparent sampleChain sampleOptions)
            init).store.validatorSet root, validatorSet.powerSum ≤ 2 ^ 53 := by decide +kernel
  have hnodup : (pendingGenesis.consensus.signers .transparent
      (sampleChain.genesisHash .transparent)).Nodup := by decide +kernel
  intro before event after heq
  have hnot : event.catchesUp ≠ true := by
    rw [hevents event (by simp [heq])]
    nofun
  have hnone : event ≠ .catchUpNext .done := by
    rintro rfl
    exact hnot rfl
  refine ⟨?_, fun hdone => absurd hdone hnone, fun hdone => absurd hdone hnone⟩
  intro _ pending root validatorSet _ hat hstored
  rcases hpending before (by simp [heq]) _ hat with ⟨hsame, hsums⟩
  simp only at hsame
  rw [hsame]
  exact ⟨hnodup, hsums root rfl validatorSet hstored⟩

theorem raises_authorised_genesis :
    (Synchronizer.run .transparent sampleChain sampleOptions init genesisEvents).store.height = 1 ∧
    Along (Synchronizer.step .transparent sampleChain sampleOptions) init genesisEvents
      (RaiseAuthorised .transparent sampleChain sampleOptions) :=
  ⟨by decide +kernel, raises_authorised .transparent sampleChain sampleOptions genesisEvents
    guarded_genesisEvents⟩

/-- A header of height 2 that a remote node makes up. No validator set has the root that it names. -/
def madeUpHeader : BlockHeader := { sampleGenesis.header with
  height := 2
  height_lt := BlockHeader.two_lt
  nextValidatorSetRoot := Hash.zero }

/-- The header above it, with a certificate and a validator set of the remote node. -/
def consentedMadeUp : ConsentedHeader :=
  let header : BlockHeader := { sampleGenesis.header with
    height := 3
    height_lt := by decide
    lastBlockHash := madeUpHeader.hash .transparent }
  ⟨header, sampleCertificate (Consensus.sampleKey 9) header,
    ⟨[⟨(Consensus.sampleKey 9).address .transparent, 1⟩]⟩⟩

/-- The chain has height 1, and the catch up is about to raise it to 3. -/
def beforeRaise : Synchronizer :=
  Synchronizer.run .transparent sampleChain sampleOptions init (genesisEvents ++
    [.catchUp 3, .catchUpNext .done, .catchUpNext (.consentedHeader consentedMadeUp),
      .catchUpNext .done, .catchUpNext .done, .catchUpNext (.headers [madeUpHeader]),
      .catchUpNext .done, .catchUpNext .done, .catchUpNext .done, .startJob ⟨2, 3⟩,
      .jobNext 0 (.bodies [sampleGenesis.body, sampleGenesis.body]), .jobNext 0 .done,
      .jobNext 0 .done, .jobNext 0 .done, .jobNext 0 .done, .catchUpNext .done, .catchUpNext .done,
      .catchUpNext .done])

theorem hash_transparent_ne_zero (validatorSet : ValidatorSet) :
    validatorSet.hash .transparent ≠ .ok Hash.zero := by
  intro hhash
  rcases ValidatorSet.exists_items_of_hash hhash with ⟨items, -, hroot⟩
  rw [MerkleTree.rootOfData_eq] at hroot
  exact Crypto.transparent_fromData_ne_zero _ hroot.symm

/-- The height is raised with a certificate that nobody in the local chain has a say in. -/
theorem raises_by_stranger :
    beforeRaise.store.height = 1 ∧
    (beforeRaise.step .transparent sampleChain sampleOptions (.catchUpNext .done)).store.height = 3 ∧
    ¬ RaiseAuthorised .transparent sampleChain sampleOptions beforeRaise (.catchUpNext .done) := by
  -- the run is evaluated once
  obtain ⟨hbefore, hafter, hnamed⟩ :
      beforeRaise.store.height = 1 ∧
      (beforeRaise.step .transparent sampleChain sampleOptions
        (.catchUpNext .done)).store.height = 3 ∧
      (beforeRaise.step .transparent sampleChain sampleOptions
        (.catchUpNext .done)).store.header 2 = some madeUpHeader := by decide +kernel
  refine ⟨hbefore, hafter, ?_⟩
  intro hauthorised
  unfold RaiseAuthorised at hauthorised
  generalize beforeRaise.step .transparent sampleChain sampleOptions (.catchUpNext .done) = s'
    at hafter hnamed hauthorised
  rcases hauthorised (by omega) with ⟨_, _, root, -, -, hroot, validatorSet, hhash, -⟩
  rw [hafter, NamesRoot, if_neg (by decide : ¬ 3 = 1)] at hroot
  rcases hroot with ⟨header, hheader, rfl⟩
  obtain rfl := Option.some.inj (hnamed.symm.trans hheader)
  exact hash_transparent_ne_zero validatorSet hhash

end Sample

end Synchronizer

end ChainCore
end UniqysKit
