import UniqysKit.ChainCore.HeightAuthority

/-!
# Whether the stored chain is linked by hashes

`catchUpHeaders` compares each header with the one above it, from the top of the segment that it
loads down to the local height; where the segment meets the local chain nothing is compared, and
`chainPendingBlock` does not compare at all.  `LinkGuarded` is what the code leaves to those who send
blocks and headers.  Where it holds, a segment of any length is linked when its height is reached
(`hash_linked`).
-/

namespace UniqysKit
namespace ChainCore

open Library

section Definitions

variable (c : Crypto)

/-- The headers of two heights that follow each other are linked. -/
def LinkedAt (store : BlockStore) (h : Nat) : Prop :=
  ∃ below above, store.header h = some below ∧ store.header (h + 1) = some above ∧
    above.height = h + 1 ∧ above.lastBlockHash = below.hash c

/-- The lowest height of the segment that `catchUpHeaders` has stored; 0 when it has come down to the
local chain. -/
def CatchUp.bottom (place : CatchUp) : Nat := place.lowest.getD 0

/-- The lowest header of the segment is stored, and the next one to be written fits it. -/
def CatchUp.Joins (store : BlockStore) : CatchUp → Prop
  | .readUnknown _ last => store.header last.height = some last
  | .fetchHeaders _ last _ _ => store.header last.height = some last
  | .setHeader _ header _ => ∃ last, store.header (header.height + 1) = some last ∧
      last.height = header.height + 1 ∧ header.hash c = last.lastBlockHash
  | _ => True

namespace Synchronizer

variable (blockchain : Blockchain) (options : SynchronizerOptions)

/-- The header at 1 is the genesis header, and the chain is linked up to its height. -/
structure HashLinked (s : Synchronizer) : Prop where
  genesis : s.isReady = true → s.store.header 1 = some blockchain.genesisBlock.header
  linked : ∀ h, 1 ≤ h → h < s.store.height → LinkedAt c s.store h

/-- What must hold at a step:
the header of a block that is chained is the genesis header at height 1, else it names the hash of
the header that is stored below; and it is the header stored at its height where the catch up has
stored one;
a header that the catch up writes is there already, or it is above the height, is not written over
the header of a block that is being chained, and is the genesis header if its height is 1;
and the last header that the catch up fetches names the hash of the last header of the local
chain. -/
structure LinkGuarded (s : Synchronizer) (event : Event) : Prop where
  first : ∀ bodyFirst header, event = .chain bodyFirst →
    s.written c blockchain options event = some (.header 1 header) →
      header = blockchain.genesisBlock.header
  chained : ∀ bodyFirst h header, event = .chain bodyFirst → 1 ≤ h →
    s.written c blockchain options event = some (.header (h + 1) header) →
      ∃ below, s.store.header h = some below ∧ header.lastBlockHash = below.hash c
  fetched : ∀ bodyFirst h header, event = .chain bodyFirst →
    s.written c blockchain options event = some (.header h header) →
      ∀ place ∈ s.catchUp, place.stored = true → ∀ consented ∈ place.consented,
        place.bottom ≤ h → h ≤ consented.height → s.store.header h = some header
  headers : event.catchesUp = true → ∀ h header,
    s.written c blockchain options event = some (.header h header) →
      s.store.header h = some header ∨ (s.store.height < h ∧
        (∀ entry ∈ s.chaining, entry.2.commits = true → entry.1.height ≠ h) ∧
        (h = 1 → header = blockchain.genesisBlock.header))
  seam : event = .catchUpNext .done → ∀ consented last,
    s.catchUp = some (.readUnknown consented last) → last.height = s.store.getHeight + 1 →
      1 ≤ s.store.getHeight →
        ∃ below, s.store.header s.store.getHeight = some below ∧ last.lastBlockHash = below.hash c

/-- The segment that `catchUpAsync` has stored is linked, as far as it is above the height. -/
structure Joined (s : Synchronizer) (place : CatchUp) : Prop where
  links : place.stored = true → ∀ consented ∈ place.consented, ∀ h, place.bottom ≤ h →
    s.store.height ≤ h → 1 ≤ h → h < consented.height → LinkedAt c s.store h
  joins : place.Joins c s.store
  bottom : ∀ consented ∈ place.consented, place.bottom ≤ consented.height

/-- The invariant of guarded runs. -/
structure Chained (s : Synchronizer) : Prop where
  locked : s.Locked
  rooted : s.isReady = true ∨ 0 < s.store.height →
    s.store.header 1 = some blockchain.genesisBlock.header
  linked : ∀ h, 1 ≤ h → h < s.store.height → LinkedAt c s.store h
  committing : ∀ entry ∈ s.chaining, entry.2.commits = true → 1 ≤ s.store.height →
    LinkedAt c s.store s.store.height
  catchUp : ∀ place ∈ s.catchUp, Joined c s place

end Synchronizer

end Definitions

section Frames

variable {c : Crypto} {store store' : BlockStore} {h : Nat}

theorem LinkedAt.congr (hlinked : LinkedAt c store h) (hbelow : store'.header h = store.header h)
    (habove : store'.header (h + 1) = store.header (h + 1)) : LinkedAt c store' h := by
  rcases hlinked with ⟨below, above, hb, ha, hheight, hhash⟩
  exact ⟨below, above, hbelow.trans hb, habove.trans ha, hheight, hhash⟩

/-- A header that is written elsewhere breaks no link. -/
theorem LinkedAt.setHeader {k : Nat} {header : BlockHeader} (hlinked : LinkedAt c store h)
    (hbelow : h ≠ k) (habove : h + 1 ≠ k) : LinkedAt c (store.setHeader k header) h :=
  hlinked.congr (BlockStore.header_setHeader_of_ne hbelow) (BlockStore.header_setHeader_of_ne habove)

/-- A header that is written above the one it names. -/
theorem linkedAt_setHeader_above {header below : BlockHeader} (hbelow : store.header h = some below)
    (hheight : header.height = h + 1) (hhash : header.lastBlockHash = below.hash c) :
    LinkedAt c (store.setHeader (h + 1) header) h := by
  refine ⟨below, header, ?_, BlockStore.header_setHeader, hheight, hhash⟩
  rw [BlockStore.header_setHeader_of_ne (by omega)]
  exact hbelow

/-- A header that is written below the one that names it. -/
theorem linkedAt_setHeader_below {header last : BlockHeader}
    (hlast : store.header (h + 1) = some last) (hheight : last.height = h + 1)
    (hhash : header.hash c = last.lastBlockHash) : LinkedAt c (store.setHeader h header) h := by
  refine ⟨header, last, BlockStore.header_setHeader, ?_, hheight, hhash.symm⟩
  rw [BlockStore.header_setHeader_of_ne (by omega)]
  exact hlast

theorem CatchUp.Joins.congr {place : CatchUp} (hjoins : place.Joins c store)
    (hheader : store'.header = store.header) : place.Joins c store' := by
  cases place with
  | readUnknown _ last => exact (congrFun hheader _).trans hjoins
  | fetchHeaders _ last _ _ => exact (congrFun hheader _).trans hjoins
  | setHeader _ header _ =>
      rcases hjoins with ⟨last, hlast, hrest⟩
      exact ⟨last, (congrFun hheader _).trans hlast, hrest⟩
  | _ => trivial

/-- What the segment begins with is at its bottom. -/
theorem CatchUp.Joins.setHeader {place : CatchUp} {k : Nat} {header : BlockHeader}
    (hjoins : place.Joins c store) (hne : ∀ h ∈ place.lowest, h ≠ k) :
    place.Joins c (store.setHeader k header) := by
  cases place with
  | readUnknown _ last =>
      exact (BlockStore.header_setHeader_of_ne (hne _ rfl)).trans hjoins
  | fetchHeaders _ last _ _ =>
      exact (BlockStore.header_setHeader_of_ne (hne _ rfl)).trans hjoins
  | setHeader _ header _ =>
      rcases hjoins with ⟨last, hlast, hrest⟩
      exact ⟨last, (BlockStore.header_setHeader_of_ne (hne _ rfl)).trans hlast, hrest⟩
  | _ => trivial

theorem CatchUp.lowest_eq_bottom {place : CatchUp} {k : Nat} (hk : k ∈ place.lowest) :
    place.bottom = k := by
  unfold CatchUp.bottom
  rw [Option.mem_def.mp hk]
  rfl

namespace Synchronizer

variable {blockchain : Blockchain} {s : Synchronizer} {place : CatchUp}

/-- The headers are what they were, and the height has not fallen. -/
theorem Joined.frame {s' : Synchronizer} (hjoined : Joined c s place)
    (hheight : s.store.height ≤ s'.store.height) (hheader : s'.store.header = s.store.header) :
    Joined c s' place := by
  refine ⟨?_, hjoined.joins.congr hheader, hjoined.bottom⟩
  intro hstored consented hconsented h hbottom habove hpos hlt
  exact (hjoined.links hstored consented hconsented h hbottom (hheight.trans habove) hpos hlt).congr
    (congrFun hheader _) (congrFun hheader _)

/-- A step that changes neither the headers nor the height. -/
theorem Chained.frame {s' : Synchronizer} (hchained : s.Chained c blockchain) (hlocked : s'.Locked)
    (hready : s'.isReady = s.isReady) (hheight : s'.store.height = s.store.height)
    (hheader : s'.store.header = s.store.header)
    (hcommits : ∀ entry ∈ s'.chaining, entry.2.commits = true →
      ∃ entry' ∈ s.chaining, entry'.2.commits = true)
    (hcatchUp : ∀ place ∈ s'.catchUp, Joined c s place) : s'.Chained c blockchain := by
  have hlink : ∀ h, LinkedAt c s.store h → LinkedAt c s'.store h := fun h hlinked =>
    hlinked.congr (congrFun hheader _) (congrFun hheader _)
  refine ⟨hlocked, ?_, ?_, ?_, ?_⟩
  · rw [hready, hheight, hheader]
    exact hchained.rooted
  · intro h hpos hlt
    exact hlink h (hchained.linked h hpos (hheight ▸ hlt))
  · intro entry hentry hcommit hpos
    rcases hcommits entry hentry hcommit with ⟨entry', hentry', hcommit'⟩
    rw [hheight] at hpos ⊢
    exact hlink _ (hchained.committing entry' hentry' hcommit' hpos)
  · intro place hplace
    exact (hcatchUp place hplace).frame hheight.ge hheader

end Synchronizer

end Frames

section Steps

namespace Synchronizer

variable {c : Crypto} {blockchain : Blockchain} {options : SynchronizerOptions} {s : Synchronizer}
  {event : Event}

/-! ## Chaining -/

/-- The header of a pending block is written below what the catch up has stored, above it, or where
it is stored already. -/
theorem Joined.chainHeader {place : CatchUp} {k : Nat} {header : BlockHeader} {s' : Synchronizer}
    (hjoined : Joined c s place) (hstore : s'.store = s.store.setHeader k header)
    (hfetched : place.stored = true → ∀ consented ∈ place.consented, place.bottom ≤ k →
      k ≤ consented.height → s.store.header k = some header) :
    Joined c s' place := by
  by_cases hsame : s.store.header k = some header
  · rw [BlockStore.setHeader_eq_self hsame] at hstore
    exact hjoined.frame (by rw [hstore]) (by rw [hstore])
  · have hout : place.stored = true → ∀ consented ∈ place.consented,
        k < place.bottom ∨ consented.height < k := by
      intro hstored consented hconsented
      by_contra hin
      push Not at hin
      exact hsame (hfetched hstored consented hconsented hin.1 hin.2)
    refine ⟨?_, ?_, hjoined.bottom⟩
    · intro hstored consented hconsented h hbottom habove hpos hlt
      rw [hstore] at habove ⊢
      refine (hjoined.links hstored consented hconsented h hbottom habove hpos hlt).setHeader ?_ ?_
      · rcases hout hstored consented hconsented with hlow | hhigh
        · omega
        · omega
      · rcases hout hstored consented hconsented with hlow | hhigh
        · omega
        · omega
    · rw [hstore]
      refine hjoined.joins.setHeader ?_
      rintro h hh rfl
      -- the bottom of the segment is in the segment
      obtain ⟨consented, hconsented, hstored⟩ : ∃ consented ∈ place.consented,
          place.stored = true := by
        cases place with
        | readUnknown consented _ => exact ⟨consented, rfl, rfl⟩
        | fetchHeaders consented _ _ _ => exact ⟨consented, rfl, rfl⟩
        | setHeader consented _ _ => exact ⟨consented, rfl, rfl⟩
        | _ => cases hh
      have hbottom := hjoined.bottom consented hconsented
      have hlowest := CatchUp.lowest_eq_bottom hh
      rcases hout hstored consented hconsented with hlow | hhigh
      · omega
      · omega

/-- The header of the pending block is written. -/
theorem Chained.writeHeader (hchained : s.Chained c blockchain)
    {pending : Pending} {place' : Chaining}
    (hlocked : ({ s with
      store := s.store.setHeader pending.height pending.block.header
      chaining := some (pending, place') } : Synchronizer).Locked)
    (hnext : pending.height = s.store.height + 1)
    (hfirst : pending.height = 1 → pending.block.header = blockchain.genesisBlock.header)
    (hlink : 1 ≤ s.store.height → ∃ below, s.store.header s.store.height = some below ∧
      pending.block.header.lastBlockHash = below.hash c)
    (hfetched : ∀ place ∈ s.catchUp, place.stored = true → ∀ consented ∈ place.consented,
      place.bottom ≤ pending.height → pending.height ≤ consented.height →
        s.store.header pending.height = some pending.block.header) :
    ({ s with
      store := s.store.setHeader pending.height pending.block.header
      chaining := some (pending, place') } : Synchronizer).Chained c blockchain := by
  refine ⟨hlocked, ?_, ?_, ?_, ?_⟩
  · intro hready
    change (s.store.setHeader pending.height pending.block.header).header 1 = _
    by_cases hone : pending.height = 1
    · rw [hone, BlockStore.header_setHeader, hfirst hone]
    · rw [BlockStore.header_setHeader_of_ne (Ne.symm hone)]
      exact hchained.rooted hready
  · intro h hpos hlt
    -- the links below the tip are not touched
    change h < s.store.height at hlt
    exact (hchained.linked h hpos hlt).setHeader (by omega) (by omega)
  · intro entry _ _ hpos
    change 1 ≤ s.store.height at hpos
    -- the new block names the tip
    rcases hlink hpos with ⟨below, hbelow, hhash⟩
    have habove := @linkedAt_setHeader_above c s.store s.store.height pending.block.header below
      hbelow hnext hhash
    rw [← hnext] at habove
    exact habove
  · intro place hplace
    exact (hchained.catchUp place hplace).chainHeader rfl (hfetched place hplace)

theorem Chained.chainWrites (hchained : s.Chained c blockchain) (hready : s.isReady = true)
    {bodyFirst : Bool} {pending : Pending} {place place' : Chaining} {write : Write}
    (hguard : LinkGuarded c blockchain options s (.chain bodyFirst))
    (hwritten : s.written c blockchain options (.chain bodyFirst) = some write)
    (hat : s.chaining = some (pending, place)) (hwrites : place.Writes pending write place') :
    ({ s with store := write.apply s.store, chaining := some (pending, place') } :
      Synchronizer).Chained c blockchain := by
  have hlocked := hchained.locked.chainWrites hat hwrites
  have hheight := hchained.locked.chaining _ hat
  -- what the guard says of the header, where that is written
  have hheader : pending.height = s.store.height + 1 →
      write = .header pending.height pending.block.header →
      ({ s with
        store := s.store.setHeader pending.height pending.block.header
        chaining := some (pending, place') } : Synchronizer).Locked →
      ({ s with
        store := s.store.setHeader pending.height pending.block.header
        chaining := some (pending, place') } : Synchronizer).Chained c blockchain := by
    rintro hnext rfl hlocked
    refine hchained.writeHeader hlocked hnext ?_ ?_ ?_
    · intro hone
      rw [hone] at hwritten
      exact hguard.first bodyFirst _ rfl hwritten
    · intro hpos
      rw [hnext] at hwritten
      exact hguard.chained bodyFirst _ _ rfl hpos hwritten
    · exact hguard.fetched bodyFirst _ _ rfl hwritten
  cases hwrites with
  | headerFirst => exact hheader hheight rfl hlocked
  | header => exact hheader hheight rfl hlocked
  | bodyFirst => exact hchained.frame hlocked rfl rfl rfl (by rintro _ ⟨⟩ ⟨⟩) hchained.catchUp
  | body =>
      refine hchained.frame hlocked rfl rfl rfl ?_ hchained.catchUp
      intro _ _ _
      exact ⟨_, hat, rfl⟩
  | cachedHeight => exact hchained.frame hlocked rfl rfl rfl (by rintro _ ⟨⟩ ⟨⟩) hchained.catchUp
  | lastConsensus => exact hchained.frame hlocked rfl rfl rfl (by rintro _ ⟨⟩ ⟨⟩) hchained.catchUp
  | height =>
      have hnext : pending.height = s.store.height + 1 := hheight
      refine ⟨hlocked, ?_, ?_, by rintro _ ⟨⟩ ⟨⟩, ?_⟩
      · intro _
        exact hchained.rooted (.inl hready)
      · intro h hpos hlt
        change h < pending.height at hlt
        by_cases hbelow : h < s.store.height
        · exact hchained.linked h hpos hbelow
        · obtain rfl : h = s.store.height := by omega
          exact hchained.committing _ hat rfl hpos
      · intro place hplace
        refine (hchained.catchUp place hplace).frame ?_ rfl
        change s.store.height ≤ pending.height
        omega

/-! ## Catching up -/

/-- The loop of `catchUpHeaders` passes a header on only if the one above names its hash. -/
theorem Joined.nextHeader {consented : ConsentedHeader} {last : BlockHeader}
    {headers : List BlockHeader} {next : CatchUp}
    (hjoined : Joined c s (.readUnknown consented last))
    (hnext : ChainCore.nextHeader c consented last headers = some next) : Joined c s next := by
  rcases nextHeader_cases c hnext with rfl | ⟨header, rest, rfl, hlinked, hhash⟩
  · exact hjoined
  · refine ⟨?_, ?_, ?_⟩
    · intro _ _ hconsented h hbottom
      refine hjoined.links rfl _ hconsented h ?_
      change last.height ≤ h
      change header.height + 1 ≤ h at hbottom
      omega
    · refine ⟨last, ?_, hlinked.symm, hhash⟩
      rw [hlinked]
      exact hjoined.joins
    · intro consented' hconsented
      change header.height + 1 ≤ consented'.height
      rw [hlinked]
      exact hjoined.bottom consented' hconsented

/-- Where the segment meets the local chain, it is linked from there on. -/
theorem Joined.readKnown (hlocked : s.Locked) {consented : ConsentedHeader} {last : BlockHeader}
    (hjoined : Joined c s (.readUnknown consented last))
    (hheight : last.height ≤ s.store.getHeight + 1)
    (hseam : last.height = s.store.getHeight + 1 → 1 ≤ s.store.getHeight →
      ∃ below, s.store.header s.store.getHeight = some below ∧ last.lastBlockHash = below.hash c) :
    Joined c s (.readKnown consented) := by
  refine ⟨?_, trivial, fun _ _ => Nat.zero_le _⟩
  intro _ _ hconsented h _ habove hpos hlt
  by_cases hin : last.height ≤ h
  · exact hjoined.links rfl _ hconsented h hin habove hpos hlt
  · -- below the segment there is only the seam
    have hle := hlocked.le
    obtain rfl : h = s.store.getHeight := by omega
    have hlast : last.height = s.store.getHeight + 1 := by omega
    rcases hseam hlast hpos with ⟨below, hbelow, hhash⟩
    refine ⟨below, last, hbelow, ?_, hlast, hhash⟩
    rw [← hlast]
    exact hjoined.joins

theorem Joined.goes (hlocked : s.Locked) {place next : CatchUp} (hjoined : Joined c s place)
    (hseam : ∀ consented last, place = .readUnknown consented last →
      last.height = s.store.getHeight + 1 → 1 ≤ s.store.getHeight →
        ∃ below, s.store.header s.store.getHeight = some below ∧ last.lastBlockHash = below.hash c)
    (hgoes : place.Goes c blockchain s (some next)) : Joined c s next := by
  generalize hsome : some next = result at hgoes
  cases hgoes with
  | consented _ => cases hsome; exact ⟨nofun, trivial, fun _ _ => Nat.zero_le _⟩
  | above _ => cases hsome; exact ⟨hjoined.links, hjoined.joins, hjoined.bottom⟩
  | headers =>
      have hread : Joined c s (.readUnknown _ _) := ⟨hjoined.links, hjoined.joins, hjoined.bottom⟩
      exact hread.nextHeader hsome.symm
  | fetch => cases hsome; exact ⟨nofun, trivial, nofun⟩
  | @bottom consented last hheight =>
      cases hsome
      exact hjoined.readKnown hlocked hheight (hseam consented last rfl)
  | split => cases hsome; exact ⟨hjoined.links, trivial, hjoined.bottom⟩
  | job => cases hsome; exact ⟨hjoined.links, trivial, hjoined.bottom⟩
  | loaded => cases hsome; exact ⟨hjoined.links, trivial, hjoined.bottom⟩
  | writeLock _ _ => cases hsome; exact ⟨hjoined.links, trivial, hjoined.bottom⟩
  | higher _ => cases hsome; exact ⟨hjoined.links, trivial, hjoined.bottom⟩
  | known => cases hsome
  | refused => cases hsome
  | failed => cases hsome
  | lower => cases hsome

/-- A guarded header of the catch up is written. -/
theorem Chained.catchUpHeader (hchained : s.Chained c blockchain) {height : Nat}
    {header : BlockHeader} {next : Option CatchUp}
    (hlocked : ({ s with store := s.store.setHeader height header, catchUp := next } :
      Synchronizer).Locked)
    (hguard : s.store.header height = some header ∨ (s.store.height < height ∧
      (∀ entry ∈ s.chaining, entry.2.commits = true → entry.1.height ≠ height) ∧
      (height = 1 → header = blockchain.genesisBlock.header)))
    (hnext : ∀ place ∈ next, Joined c
      { s with store := s.store.setHeader height header, catchUp := next } place) :
    ({ s with store := s.store.setHeader height header, catchUp := next } :
      Synchronizer).Chained c blockchain := by
  rcases hguard with hsame | ⟨habove, hcommits, hone⟩
  · rw [BlockStore.setHeader_eq_self hsame] at hlocked hnext ⊢
    exact ⟨hlocked, hchained.rooted, hchained.linked, hchained.committing, hnext⟩
  · refine ⟨hlocked, ?_, ?_, ?_, hnext⟩
    · intro hready
      change (s.store.setHeader height header).header 1 = _
      by_cases hheight : height = 1
      · rw [hheight, BlockStore.header_setHeader, hone hheight]
      · rw [BlockStore.header_setHeader_of_ne (Ne.symm hheight)]
        exact hchained.rooted hready
    · intro h hpos hlt
      change h < s.store.height at hlt
      exact (hchained.linked h hpos hlt).setHeader (by omega) (by omega)
    · intro entry hentry hcommit hpos
      have hne := hcommits entry hentry hcommit
      -- the block that is being written is the next one
      have hnext : entry.1.height = s.store.height + 1 := by
        have hat := hchained.locked.chaining entry hentry
        rcases entry with ⟨pending, place⟩
        cases place with
        | setBody => exact hat
        | update stage => cases stage with
          | readHeight => exact hat
          | setHeight => exact hat
          | cacheHeight => cases hcommit
          | setLastConsensus => cases hcommit
        | _ => cases hcommit
      change 1 ≤ s.store.height at hpos
      exact (hchained.committing entry hentry hcommit hpos).setHeader (by omega) (by omega)

theorem Chained.catchUpWrites (hchained : s.Chained c blockchain) (hready : s.isReady = true)
    {place : CatchUp} {next : Option CatchUp} {write : Write} (hat : s.catchUp = some place)
    (hguard : ∀ height header, write = .header height header →
      s.store.header height = some header ∨ (s.store.height < height ∧
        (∀ entry ∈ s.chaining, entry.2.commits = true → entry.1.height ≠ height) ∧
        (height = 1 → header = blockchain.genesisBlock.header)))
    (hwrites : place.Writes c write next) :
    ({ s with store := write.apply s.store, catchUp := next } : Synchronizer).Chained
      c blockchain := by
  have hlocked := hchained.locked.catchUpWrites hat hwrites
  have hjoined := hchained.catchUp place hat
  have hheight := hchained.locked.catchUp place hat
  have hcommits : ∀ entry ∈ s.chaining, entry.2.commits = true →
      ∃ entry' ∈ s.chaining, entry'.2.commits = true :=
    fun entry hentry hcommit => ⟨entry, hentry, hcommit⟩
  cases hwrites with
  | @last consented =>
      refine hchained.catchUpHeader hlocked (hguard _ _ rfl) ?_
      rintro place' ⟨⟩
      refine ⟨?_, BlockStore.header_setHeader, ?_⟩
      · rintro _ _ ⟨⟩ h hbottom _ _ hlt
        change consented.header.height ≤ h at hbottom
        change h < consented.header.height at hlt
        omega
      · rintro _ ⟨⟩
        exact le_rfl
  | @header consented header rest =>
      refine hchained.catchUpHeader hlocked (hguard _ _ rfl) ?_
      rcases hjoined.joins with ⟨last, hlast, hlastHeight, hhash⟩
      have hbelow : header.height + 1 ≤ consented.height := hjoined.bottom _ rfl
      -- the segment grows downwards by the header
      have hread : Joined c { s with
          store := s.store.setHeader header.height header
          catchUp := nextHeader c consented header rest } (.readUnknown consented header) := by
        refine ⟨?_, BlockStore.header_setHeader, ?_⟩
        · rintro _ _ ⟨⟩ h hbottom habove hpos hlt
          change header.height ≤ h at hbottom
          by_cases hsame : h = header.height
          · subst hsame
            exact linkedAt_setHeader_below hlast hlastHeight hhash
          · refine (hjoined.links rfl _ rfl h ?_ habove hpos hlt).setHeader hsame (by omega)
            change header.height + 1 ≤ h
            omega
        · rintro _ ⟨⟩
          change header.height ≤ consented.height
          omega
      intro place' hplace
      exact hread.nextHeader hplace
  | body =>
      refine hchained.frame hlocked rfl rfl rfl hcommits ?_
      rintro place' ⟨⟩
      exact ⟨hjoined.links, trivial, hjoined.bottom⟩
  | @height consented =>
      have hlt : s.store.height < consented.height := hheight
      refine ⟨hlocked, fun _ => hchained.rooted (.inl hready), ?_, ?_, ?_⟩
      · intro h hpos hbelow
        change h < consented.height at hbelow
        by_cases hold : h < s.store.height
        · exact hchained.linked h hpos hold
        · exact hjoined.links rfl consented rfl h (Nat.zero_le _) (Nat.not_lt.mp hold) hpos hbelow
      · intro entry hentry hcommit
        have hfree := hchained.locked.exclusive entry hentry _ hat
          (Chaining.writes_of_commits hcommit)
        cases hfree
      · rintro place' ⟨⟩
        have hupdate : Joined c s (.update consented .cacheHeight) :=
          ⟨hjoined.links, trivial, hjoined.bottom⟩
        exact hupdate.frame hlt.le rfl
  | cachedHeight =>
      refine hchained.frame hlocked rfl rfl rfl hcommits ?_
      rintro place' ⟨⟩
      exact ⟨hjoined.links, trivial, hjoined.bottom⟩
  | lastConsensus => exact hchained.frame hlocked rfl rfl rfl hcommits nofun

/-! ## All steps -/

theorem Chained.start (hchained : s.Chained c blockchain) :
    (Synchronizer.start c blockchain s.store).Chained c blockchain := by
  have hlocked := @locked_start c blockchain s.store
  have hheight := @height_start c blockchain s.store
  have hheader : (Synchronizer.start c blockchain s.store).store.header =
      (rootedStore blockchain s.store).header := by
    rcases @start_cases c blockchain s.store with ⟨isReady, store', hstart, hstore⟩
    rw [hstart]
    rcases hstore with rfl | ⟨root, -, rfl⟩
    · rfl
    · rfl
  refine ⟨hlocked, ?_, ?_, ?_, ?_⟩
  · intro _
    rw [hheader]
    unfold rootedStore
    split
    · exact @BlockStore.header_setHeader { s.store with cachedHeight := 0 } 1 _
    · rename_i hpos
      -- the genesis block is stored again only on an empty chain
      exact hchained.rooted (.inr (Nat.pos_of_ne_zero hpos))
  · intro h hpos hlt
    rw [hheight] at hlt
    -- there is a block, so `ready` stores no header
    have hsame : (rootedStore blockchain s.store).header = s.store.header := by
      unfold rootedStore
      rw [if_neg (by omega)]
    rw [hsame] at hheader
    exact (hchained.linked h hpos hlt).congr (congrFun hheader _) (congrFun hheader _)
  · rcases @start_cases c blockchain s.store with ⟨isReady, store', hstart, -⟩
    rw [hstart]
    nofun
  · rcases @start_cases c blockchain s.store with ⟨isReady, store', hstart, -⟩
    rw [hstart]
    nofun

/-- `readUnknown` goes on when the height is read, and not before. -/
theorem step_readUnknown (hready : s.isReady = true) {consented : ConsentedHeader}
    {last : BlockHeader} (hat : s.catchUp = some (.readUnknown consented last))
    (hcatches : event.catchesUp = true) (hne : event ≠ .catchUpNext .done) :
    s.step c blockchain options event = s := by
  refine step_of_advance_none hready ?_
  cases event with
  | catchUpNext reply =>
      cases reply with
      | done => exact absurd rfl hne
      | _ => simp [advance, hat, CatchUp.next, CatchUp.locks]
  | startJob job => simp only [advance, hat]
  | jobNext i reply => simp only [advance, hat]
  | _ => cases hcatches

theorem Chained.step (hchained : s.Chained c blockchain)
    (hguard : LinkGuarded c blockchain options s event) :
    (s.step c blockchain options event).Chained c blockchain := by
  cases hready : s.isReady with
  | false =>
      unfold Synchronizer.step
      rw [hready]
      split
      · exact hchained.start
      · exact hchained
      · rename_i heq
        cases heq
  | true =>
      -- a reply that `readUnknown` does not wait for changes nothing
      by_cases hidle : (∃ consented last, s.catchUp = some (.readUnknown consented last)) ∧
          event.catchesUp = true ∧ event ≠ .catchUpNext .done
      · rcases hidle with ⟨⟨consented, last, hat⟩, hcatches, hne⟩
        rw [step_readUnknown hready hat hcatches hne]
        exact hchained
      have hmoves : s.Moves c blockchain options event (s.step c blockchain options event) :=
        step_moves hready event
      have hlocked : (s.step c blockchain options event).Locked := hchained.locked.step event
      generalize s.step c blockchain options event = s' at hmoves hlocked ⊢
      -- the block that is being chained is the one from before the step
      have hold : ∀ entry ∈ s.chaining, entry.2.commits = true →
          ∃ entry' ∈ s.chaining, entry'.2.commits = true :=
        fun entry hentry hcommit => ⟨entry, hentry, hcommit⟩
      cases hmoves with
      | stay => exact hchained
      | start => exact hchained.start
      | queue => exact hchained.frame hlocked rfl rfl rfl hold hchained.catchUp
      | validatorSet _ => exact hchained.frame hlocked rfl rfl rfl hold hchained.catchUp
      | dequeue _ =>
          exact hchained.frame hlocked rfl rfl rfl (by rintro _ ⟨⟩ ⟨⟩) hchained.catchUp
      | chainEnds _ _ => exact hchained.frame hlocked rfl rfl rfl nofun hchained.catchUp
      | @chainGoes _ pending place _ hat hgoes =>
          refine hchained.frame hlocked rfl rfl rfl ?_ hchained.catchUp
          rintro entry ⟨⟩ hcommit
          refine ⟨_, hat, ?_⟩
          cases hgoes with
          | higher _ => rfl
          | _ => cases hcommit
      | chainWrites hwritten hat hwrites => exact hchained.chainWrites hready hguard hwritten hat hwrites
      | catchUp _ =>
          refine hchained.frame hlocked rfl rfl rfl hold ?_
          rintro place ⟨⟩
          exact ⟨nofun, trivial, nofun⟩
      | @catchUpGoes _ place next hcatches hat hgoes =>
          refine hchained.frame hlocked rfl rfl rfl hold ?_
          rintro place' rfl
          refine (hchained.catchUp _ hat).goes hchained.locked ?_ hgoes
          rintro consented last rfl
          -- the event is the read of the height, where the seam is guarded
          have hdone : event = .catchUpNext .done := by
            by_contra hne
            exact hidle ⟨⟨consented, last, hat⟩, hcatches, hne⟩
          exact hguard.seam hdone consented last hat
      | catchUpWrites hcatches hwritten hat hwrites =>
          refine hchained.catchUpWrites hready hat ?_ hwrites
          rintro height header rfl
          exact hguard.headers hcatches height header hwritten

theorem chained_init : (init : Synchronizer).Chained c blockchain := by
  refine ⟨locked_new rfl, ?_, nofun, nofun, nofun⟩
  rintro (hready | hpos)
  · cases hready
  · cases hpos

/-- In every state of a run whose steps are guarded, the stored chain is linked by hashes down to the
genesis header. -/
theorem hash_linked (c : Crypto) (blockchain : Blockchain) (options : SynchronizerOptions)
    (events : List Event)
    (hguarded : Along (Synchronizer.step c blockchain options) init events
      (LinkGuarded c blockchain options)) :
    Throughout (Synchronizer.step c blockchain options) init events
      (HashLinked c blockchain) := by
  have hchained : Throughout (Synchronizer.step c blockchain options) init events
      (Chained c blockchain) :=
    hguarded.throughout chained_init fun s event hs hguard => hs.step hguard
  intro before after hevents
  have hs := hchained before after hevents
  exact ⟨fun hready => hs.rooted (.inl hready), hs.linked⟩

end Synchronizer

end Steps

namespace Synchronizer

section Sample

/-- A block of height 2 that names some last block, with its certificate. -/
def pendingAbove (lastBlockHash : Hash) : Pending :=
  let header : BlockHeader := { sampleGenesis.header with
    height := 2
    height_lt := BlockHeader.two_lt
    lastBlockHash }
  ⟨⟨header, sampleGenesis.body⟩, sampleCertificate (Consensus.sampleKey 1) header, true⟩

/-- The node chains the genesis block and then a block of height 2. -/
def secondEvents (lastBlockHash : Hash) : List Event :=
  genesisEvents ++ chainEvents (pendingAbove lastBlockHash)

/-- There is no catch up, and the second block names the first. -/
theorem linkGuarded_secondEvents :
    Along (Synchronizer.step .transparent sampleChain sampleOptions) init
      (secondEvents (sampleGenesis.hash .transparent))
      (LinkGuarded .transparent sampleChain sampleOptions) := by
  have hevents : ∀ event ∈ secondEvents (sampleGenesis.hash .transparent),
      event.catchesUp = false := by decide
  have hstates : ∀ before ∈ (secondEvents (sampleGenesis.hash .transparent)).inits,
      let s := before.foldl (Synchronizer.step .transparent sampleChain sampleOptions) init
      s.catchUp.isNone = true ∧ ∀ entry ∈ s.chaining, entry.1 = pendingGenesis ∨
        entry.1 = pendingAbove (sampleGenesis.hash .transparent) ∧
          s.store.header 1 = some sampleGenesis.header := by decide +kernel
  intro before event after heq
  have hnot : event.catchesUp = false := hevents event (by simp [heq])
  rcases hstates before (by simp [heq]) with ⟨hnone, hpending⟩
  generalize before.foldl (Synchronizer.step .transparent sampleChain sampleOptions) init = s
    at hnone hpending
  have hcatchUp : s.catchUp = none := Option.isNone_iff_eq_none.mp hnone
  -- a header that is written is that of one of the two blocks
  have hwhich : ∀ bodyFirst h header,
      s.written .transparent sampleChain sampleOptions (.chain bodyFirst) = some (.header h header) →
      (h = 1 ∧ header = sampleGenesis.header) ∨
        (h = 2 ∧ header.lastBlockHash = sampleGenesis.hash .transparent ∧
          s.store.header 1 = some sampleGenesis.header) := by
    intro bodyFirst h header hwritten
    rcases written_chain hwritten with ⟨pending, place, place', hat, hwrites⟩
    have hfields : h = pending.height ∧ header = pending.block.header := by
      cases hwrites with
      | headerFirst => exact ⟨rfl, rfl⟩
      | header => exact ⟨rfl, rfl⟩
    rcases hfields with ⟨rfl, rfl⟩
    rcases hpending _ hat with hfirst | ⟨hsecond, hstored⟩
    · left
      rw [show pending = pendingGenesis from hfirst]
      exact ⟨rfl, rfl⟩
    · right
      rw [show pending = pendingAbove _ from hsecond]
      exact ⟨rfl, rfl, hstored⟩
  refine ⟨?_, ?_, ?_, ?_, ?_⟩
  · rintro bodyFirst header rfl hwritten
    rcases hwhich bodyFirst _ header hwritten with ⟨-, hheader⟩ | ⟨htwo, -⟩
    · exact hheader
    · cases htwo
  · rintro bodyFirst h header rfl hpos hwritten
    rcases hwhich bodyFirst _ header hwritten with ⟨hone, -⟩ | ⟨htwo, hhash, hstored⟩
    · omega
    · obtain rfl : h = 1 := by omega
      exact ⟨_, hstored, hhash⟩
  · intro _ _ _ _ _ place hplace
    rw [hcatchUp] at hplace
    cases hplace
  · intro hcatches
    rw [hnot] at hcatches
    cases hcatches
  · rintro rfl
    cases hnot

theorem hash_linked_second :
    (Synchronizer.run .transparent sampleChain sampleOptions init
      (secondEvents (sampleGenesis.hash .transparent))).store.height = 2 ∧
    Throughout (Synchronizer.step .transparent sampleChain sampleOptions) init
      (secondEvents (sampleGenesis.hash .transparent))
      (HashLinked .transparent sampleChain) :=
  ⟨by decide +kernel, hash_linked .transparent sampleChain sampleOptions _
    linkGuarded_secondEvents⟩

/-- A block is chained that does not name the block below. -/
theorem chains_unlinked :
    (Synchronizer.run .transparent sampleChain sampleOptions init
      (secondEvents Hash.zero)).store.height = 2 ∧
    ¬ HashLinked .transparent sampleChain (Synchronizer.run .transparent sampleChain sampleOptions
      init (secondEvents Hash.zero)) := by
  -- the run is evaluated once
  obtain ⟨hheight, hone, htwo⟩ :
      (Synchronizer.run .transparent sampleChain sampleOptions init
        (secondEvents Hash.zero)).store.height = 2 ∧
      (Synchronizer.run .transparent sampleChain sampleOptions init
        (secondEvents Hash.zero)).store.header 1 = some sampleGenesis.header ∧
      (Synchronizer.run .transparent sampleChain sampleOptions init
        (secondEvents Hash.zero)).store.header 2 = some (pendingAbove Hash.zero).block.header := by
    decide +kernel
  have hzero : (pendingAbove Hash.zero).block.header.lastBlockHash = Hash.zero := rfl
  have hne : sampleGenesis.header.hash .transparent ≠ Hash.zero := by decide +kernel
  refine ⟨hheight, ?_⟩
  intro hlinked
  generalize Synchronizer.run .transparent sampleChain sampleOptions init
    (secondEvents Hash.zero) = s at hheight hone htwo hlinked
  rcases hlinked.linked 1 le_rfl (by omega) with ⟨below, above, hbelow, habove, -, hhash⟩
  obtain rfl := Option.some.inj (hone.symm.trans hbelow)
  obtain rfl := Option.some.inj (htwo.symm.trans habove)
  exact hne (hhash.symm.trans hzero)

end Sample

end Synchronizer

end ChainCore
end UniqysKit
