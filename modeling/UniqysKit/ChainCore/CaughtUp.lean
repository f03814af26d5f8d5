import Mathlib.Data.Finset.Max
import UniqysKit.ChainCore.BodyDownload
import UniqysKit.ChainCore.HeaderDownload
import UniqysKit.ChainCore.SynchronizerSteps

/-!
# Catching up with nodes that serve a chain

`catchUpAsync` of a node against the `Responder` of other ones.  They have the same chain, each up to a
height of its own, and answer from their stores; the jobs that load the bodies go on in any order and
may ask different nodes.  `Follows` says what is known at each place of the code, `left` counts the
steps that are left.  `catches_up`: whatever the order, each step brings the node nearer to its end, it
never waits for something that cannot happen, and at the end the store has the chain.
-/

namespace UniqysKit
namespace ChainCore

open Library

/-! ## The answers -/

namespace Responder

def getConsentedHeader (store : BlockStore) (height : Nat) : Result ConsentedHeader := do
  let header ← store.getHeader height
  let consensus ← Blockchain.consensusOf store height
  let validatorSet ← Blockchain.validatorSetOf store height
  return ⟨header, consensus, validatorSet⟩

/-- The bodies from a height on, as far as the chain reaches. -/
def getBodies (store : BlockStore) (first count : Nat) : Result (List BlockBody) :=
  (List.range' first (min (store.getHeight + 1) (first + count) - first)).mapM store.getBody

end Responder

section Chain

variable (c : Crypto) (blockchain : Blockchain) (chain : Nat → Block) (target : Nat)

/-- The blocks up to a height are linked, and the body of each is the one that its header names. -/
structure IsChain : Prop where
  height : ∀ h, 1 ≤ h → h ≤ target → (chain h).header.height = h
  linked : ∀ h, 1 ≤ h → h < target → (chain h).header.hash c = (chain (h + 1)).header.lastBlockHash
  valid : ∀ h, 1 ≤ h → h ≤ target → (chain h).body.validate c (chain h).header = .ok ()

/-- The headers above a height are stored. -/
def HasHeaders (known : Nat) (store : BlockStore) : Prop :=
  ∀ h, known < h → h ≤ target → store.header h = some (chain h).header

def HasBodies (known : Nat) (store : BlockStore) : Prop :=
  ∀ h, known < h → h ≤ target → store.body h = some (chain h).body

/-- A node that has the chain up to a height. -/
structure Serves (store : BlockStore) : Prop where
  height : target ≤ store.getHeight
  headers : HasHeaders chain target 0 store
  bodies : HasBodies chain target 0 store

/-- The header of the last block, and a certificate for it. -/
structure Certifies (consented : ConsentedHeader) : Prop where
  header : consented.header = (chain target).header
  valid : consented.consensus.validate c (consented.header.hash c) (blockchain.genesisHash c)
    consented.validatorSet = .ok ()

/-- The replies that the best node gives, and the store. -/
def Answers : CatchUp → Reply → Prop
  | .fetchConsentedHeader, reply => ∃ store consented, Serves chain target store ∧
      Responder.getConsentedHeader store target = .ok consented ∧
      consented.consensus.validate c (consented.header.hash c) (blockchain.genesisHash c)
        consented.validatorSet = .ok () ∧
      reply = .consentedHeader consented
  | .fetchHeaders _ _ first count, reply => ∃ store headers, Serves chain target store ∧
      Responder.getHeaders store first count = .ok headers ∧ reply = .headers headers
  | _, reply => reply = .done

/-- The replies that a node gives whose chain reaches to the end of the job, and the store. -/
def JobAnswers (job : Job) : JobStep → Reply → Prop
  | .fetchBodies, reply => ∃ store bodies, Serves chain job.last store ∧
      Responder.getBodies store job.first job.count = .ok bodies ∧ reply = .bodies bodies
  | _, reply => reply = .done

/-- No request fails, and no block is chained meanwhile. -/
def Honest (s : Synchronizer) : Synchronizer.Event → Prop
  | .catchUpNext reply =>
      ∀ place, s.catchUp = some place → Answers c blockchain chain target place reply
  | .jobNext i reply => ∀ consented jobQueue inProgress job step,
      s.catchUp = some (.fetchLoop consented jobQueue inProgress) →
      inProgress[i]? = some (job, step) → JobAnswers chain job step reply
  | .startJob _ => True
  | .enqueueNewBlock _ => True
  | .enqueueBlock _ => True
  | .setValidatorSet _ => True
  | _ => False

/-- The node has taken over what it did not know of the chain, and nothing else. -/
structure Adopted (before after : BlockStore) : Prop where
  height : after.height = target
  getHeight : after.getHeight = target
  lastConsensus : ∃ consented, Certifies c blockchain chain target consented ∧
    after.lastConsensus = some consented.consensus
  headers : HasHeaders chain target before.getHeight after
  bodies : HasBodies chain target before.getHeight after
  below : ∀ h, h ≤ before.getHeight → after.header h = before.header h ∧ after.body h = before.body h

end Chain

/-! ## How much is left -/

def JobStep.left (job : Job) : JobStep → Nat
  | .fetchBodies => 2 * job.count + 1
  | .getHeader _ i => 2 * (job.count - i)
  | .setBody _ i _ => 2 * (job.count - i) - 1

/-- The steps of the jobs in the queue. -/
def queueLeft (jobQueue : List Job) : Nat := (jobQueue.map fun job => 2 * job.count + 2).sum

def tasksLeft (inProgress : List (Job × JobStep)) : Nat :=
  (inProgress.map fun task => task.2.left task.1).sum

section Left

variable (options : SynchronizerOptions) (known target : Nat)

/-- The steps from the moment that all headers are there. -/
def bodiesLeft : Nat := 7 + queueLeft (splitJobs options known target target)

def CatchUp.left : CatchUp → Nat
  | .readHeight _ => bodiesLeft options known target + 3 * (target - known) + 4
  | .fetchConsentedHeader => bodiesLeft options known target + 3 * (target - known) + 3
  | .setLastHeader _ => bodiesLeft options known target + 3 * (target - known) + 2
  | .readUnknown _ last => bodiesLeft options known target + 3 * (last.height - known) + 1
  | .fetchHeaders _ last _ _ => bodiesLeft options known target + 3 * (last.height - known)
  | .setHeader _ header _ => bodiesLeft options known target + 3 * (header.height - known) + 2
  | .readKnown _ => bodiesLeft options known target
  | .fetchLoop _ jobQueue inProgress => 6 + queueLeft jobQueue + tasksLeft inProgress
  | .takeWriteLock _ => 5
  | .update _ .readHeight => 4
  | .update _ .setHeight => 3
  | .update _ .cacheHeight => 2
  | .update _ .setLastConsensus => 1

/-- As many steps as `catchUpAsync` can take. -/
def effort : Nat := bodiesLeft options known target + 3 * (target - known) + 4

end Left

/-! ## What is known at each place -/

/-- The headers from one height down to another, without the upper one. -/
def headersDown (chain : Nat → Block) (first height : Nat) : List BlockHeader :=
  ((List.range' first (height - first)).map fun h => (chain h).header).reverse

def JobStep.done : JobStep → Nat
  | .fetchBodies => 0
  | .getHeader _ i => i
  | .setBody _ i _ => i

section Places

variable (c : Crypto) (blockchain : Blockchain) (chain : Nat → Block) (known target : Nat)

/-- The job asks for heights that are missing. -/
def Job.Within (job : Job) : Prop := known < job.first ∧ job.first ≤ job.last ∧ job.last ≤ target

/-- The bodies of the job were fetched. -/
def JobStep.Follows (job : Job) : JobStep → Prop
  | .fetchBodies => True
  | .getHeader bodies i => i < job.count ∧ bodies = job.heights.map fun h => (chain h).body
  | .setBody bodies i body => i < job.count ∧ (bodies = job.heights.map fun h => (chain h).body) ∧
      body = (chain (job.first + i)).body

/-- The body of the height is stored, or a job is there that will store it. -/
def Covered (store : BlockStore) (jobQueue : List Job) (inProgress : List (Job × JobStep)) (h : Nat) :
    Prop :=
  store.body h = some (chain h).body ∨ (∃ job ∈ jobQueue, job.first ≤ h ∧ h ≤ job.last) ∨
    ∃ task ∈ inProgress, task.1.first + task.2.done ≤ h ∧ h ≤ task.1.last

/-- What is known where `catchUpAsync` is. -/
inductive CatchUp.Follows (store : BlockStore) : CatchUp → Prop
  | readHeight (hheight : store.getHeight = known) : Follows store (.readHeight target)
  | fetchConsentedHeader (hheight : store.getHeight = known) : Follows store .fetchConsentedHeader
  | setLastHeader {consented : ConsentedHeader} (hheight : store.getHeight = known)
      (hcertifies : Certifies c blockchain chain target consented) :
      Follows store (.setLastHeader consented)
  | readUnknown {consented : ConsentedHeader} {n : Nat} (hheight : store.getHeight = known)
      (hcertifies : Certifies c blockchain chain target consented) (hknown : known < n)
      (hn : n ≤ target) (hheaders : HasHeaders chain target (n - 1) store) :
      Follows store (.readUnknown consented (chain n).header)
  | fetchHeaders {consented : ConsentedHeader} {n first : Nat} (hheight : store.getHeight = known)
      (hcertifies : Certifies c blockchain chain target consented) (hfirst : known < first)
      (hlt : first < n) (hn : n ≤ target) (hheaders : HasHeaders chain target (n - 1) store) :
      Follows store (.fetchHeaders consented (chain n).header first (n - first))
  | setHeader {consented : ConsentedHeader} {n first : Nat} (hheight : store.getHeight = known)
      (hcertifies : Certifies c blockchain chain target consented) (hfirst : known < first)
      (hle : first ≤ n) (hn : n < target) (hheaders : HasHeaders chain target n store) :
      Follows store (.setHeader consented (chain n).header (headersDown chain first n))
  | readKnown {consented : ConsentedHeader} (hheight : store.getHeight = known)
      (hcertifies : Certifies c blockchain chain target consented)
      (hheaders : HasHeaders chain target known store) : Follows store (.readKnown consented)
  | fetchLoop {consented : ConsentedHeader} {jobQueue : List Job} {inProgress : List (Job × JobStep)}
      (hheight : store.getHeight = known)
      (hcertifies : Certifies c blockchain chain target consented)
      (hheaders : HasHeaders chain target known store)
      (hqueue : ∀ job ∈ jobQueue, job.Within known target)
      (htasks : ∀ task ∈ inProgress, task.1.Within known target ∧ task.2.Follows chain task.1)
      (hcovered : ∀ h, known < h → h ≤ target → Covered chain store jobQueue inProgress h) :
      Follows store (.fetchLoop consented jobQueue inProgress)
  | takeWriteLock {consented : ConsentedHeader} (hheight : store.getHeight = known)
      (hcertifies : Certifies c blockchain chain target consented)
      (hheaders : HasHeaders chain target known store) (hbodies : HasBodies chain target known store) :
      Follows store (.takeWriteLock consented)
  | readKnownHeight {consented : ConsentedHeader} (hheight : store.getHeight = known)
      (hcertifies : Certifies c blockchain chain target consented)
      (hheaders : HasHeaders chain target known store) (hbodies : HasBodies chain target known store) :
      Follows store (.update consented .readHeight)
  | setHeight {consented : ConsentedHeader}
      (hcertifies : Certifies c blockchain chain target consented)
      (hheaders : HasHeaders chain target known store) (hbodies : HasBodies chain target known store) :
      Follows store (.update consented .setHeight)
  | cacheHeight {consented : ConsentedHeader} (hheight : store.height = target)
      (hcertifies : Certifies c blockchain chain target consented)
      (hheaders : HasHeaders chain target known store) (hbodies : HasBodies chain target known store) :
      Follows store (.update consented .cacheHeight)
  | setLastConsensus {consented : ConsentedHeader} (hheight : store.height = target)
      (hcached : store.cachedHeight = target)
      (hcertifies : Certifies c blockchain chain target consented)
      (hheaders : HasHeaders chain target known store) (hbodies : HasBodies chain target known store) :
      Follows store (.update consented .setLastConsensus)

end Places

/-! ## What honest nodes answer -/

section Answers

variable {c : Crypto} {blockchain : Blockchain} {chain : Nat → Block} {target : Nat}
  {store : BlockStore}

theorem mapM_eq_map {α β : Type} {f : α → Result β} {g : α → β} {l : List α}
    (h : ∀ a ∈ l, f a = .ok (g a)) : l.mapM f = .ok (l.map g) := by
  induction l with
  | nil => rfl
  | cons a l ih =>
      rw [List.mapM_cons, h a List.mem_cons_self, Result.ok_bind,
        ih fun b hb => h b (List.mem_cons_of_mem _ hb)]
      rfl

theorem Serves.mono {height : Nat} (h : Serves chain target store)
    (hle : height ≤ target) : Serves chain height store :=
  ⟨hle.trans h.height, fun n hpos hn => h.headers n hpos (hn.trans hle),
    fun n hpos hn => h.bodies n hpos (hn.trans hle)⟩

/-- The headers below a block of the chain. -/
theorem getHeaders_of_serves (h : Serves chain target store) {first n : Nat} (hpos : 1 ≤ first)
    (hle : first ≤ n) (hn : n ≤ target) :
    Responder.getHeaders store first (n - first) =
      .ok ((List.range' first (n - first)).map fun h => (chain h).header) := by
  have hheight := h.height
  have hcount : min (store.getHeight + 1) (first + (n - first)) - first = n - first := by omega
  rw [Responder.getHeaders, hcount]
  refine mapM_eq_map fun height hmem => ?_
  rw [List.mem_range'_1] at hmem
  exact BlockStore.getHeader_eq_ok.mpr (h.headers height (by omega) (by omega))

theorem getBodies_of_serves {job : Job} (h : Serves chain job.last store) (hpos : 1 ≤ job.first)
    (hle : job.first ≤ job.last) :
    Responder.getBodies store job.first job.count = .ok (job.heights.map fun h => (chain h).body) := by
  have hheight := h.height
  have hcount : min (store.getHeight + 1) (job.first + job.count) - job.first = job.count := by
    rw [Job.count]
    omega
  rw [Responder.getBodies, hcount]
  refine mapM_eq_map fun height hmem => ?_
  rcases (Job.mem_heights hle).mp hmem with ⟨hfirst, hlast⟩
  rw [BlockStore.getBody, h.bodies height (by omega) hlast]

theorem header_of_getConsentedHeader (h : Serves chain target store) (hpos : 1 ≤ target)
    {consented : ConsentedHeader}
    (hget : Responder.getConsentedHeader store target = .ok consented) :
    consented.header = (chain target).header := by
  rcases Result.bind_eq_ok.mp hget with ⟨header, hheader, hget⟩
  rcases Result.bind_eq_ok.mp hget with ⟨consensus, -, hget⟩
  rcases Result.bind_eq_ok.mp hget with ⟨validatorSet, -, hget⟩
  cases hget
  rw [BlockStore.getHeader_eq_ok, h.headers target hpos le_rfl] at hheader
  exact (Option.some.inj hheader).symm

theorem headersDown_of_le {first n : Nat} (h : n ≤ first) : headersDown chain first n = [] := by
  rw [headersDown, Nat.sub_eq_zero_of_le h]
  rfl

/-- The upper one of the headers comes first. -/
theorem headersDown_of_le_pred {first n : Nat} (h : first ≤ n) :
    headersDown chain first (n + 1) = (chain n).header :: headersDown chain first n := by
  have hlength : n + 1 - first = (n - first) + 1 := by omega
  have hlast : first + 1 * (n - first) = n := by omega
  rw [headersDown, hlength, List.range'_concat, List.map_append, List.reverse_append, hlast]
  rfl

/-- A header of the chain fits below the one above. -/
theorem nextHeader_headersDown (hchain : IsChain c chain target) {consented : ConsentedHeader}
    {first n : Nat} (hpos : 1 ≤ first) (hle : first ≤ n) (hn : n < target) :
    nextHeader c consented (chain (n + 1)).header (headersDown chain first (n + 1)) =
      some (.setHeader consented (chain n).header (headersDown chain first n)) := by
  rw [headersDown_of_le_pred hle, nextHeader, if_neg]
  rw [hchain.height n (by omega) (by omega), hchain.height (n + 1) (by omega) (by omega),
    hchain.linked n (by omega) hn]
  simp

end Answers

/-! ## One step -/

section Steps

variable {c : Crypto} {blockchain : Blockchain} {options : SynchronizerOptions}
  {chain : Nat → Block} {known target : Nat} {store : BlockStore}

/-- The store where `catchUpAsync` has ended. -/
structure Finished (c : Crypto) (blockchain : Blockchain) (chain : Nat → Block) (known target : Nat)
    (store : BlockStore) : Prop where
  height : store.height = target
  cachedHeight : store.cachedHeight = target
  lastConsensus : ∃ consented, Certifies c blockchain chain target consented ∧
    store.lastConsensus = some consented.consensus
  headers : HasHeaders chain target known store
  bodies : HasBodies chain target known store

/-- Nothing up to the height has changed. -/
def KeepsBelow (known : Nat) (before after : BlockStore) : Prop :=
  ∀ h, h ≤ known → after.header h = before.header h ∧ after.body h = before.body h

/-- `catchUpAsync` is at a place that is nearer to its end, or has ended. -/
def Reaches (c : Crypto) (blockchain : Blockchain) (options : SynchronizerOptions)
    (chain : Nat → Block) (known target left : Nat) (store : BlockStore) : Option CatchUp → Prop
  | some place => place.Follows c blockchain chain known target store ∧
      place.left options known target < left
  | none => Finished c blockchain chain known target store

theorem KeepsBelow.refl : KeepsBelow known store store := fun _ _ => ⟨rfl, rfl⟩

theorem KeepsBelow.trans {store' store'' : BlockStore} (h : KeepsBelow known store store')
    (h' : KeepsBelow known store' store'') : KeepsBelow known store store'' := by
  intro height hle
  exact ⟨(h' height hle).1.trans (h height hle).1, (h' height hle).2.trans (h height hle).2⟩

theorem keepsBelow_setHeader {n : Nat} {header : BlockHeader} (hn : known < n) :
    KeepsBelow known store (store.setHeader n header) := by
  intro h hle
  exact ⟨BlockStore.header_setHeader_of_ne (by omega), rfl⟩

theorem keepsBelow_setBody {n : Nat} {body : BlockBody} (hn : known < n) :
    KeepsBelow known store (store.setBody n body) := by
  intro h hle
  exact ⟨rfl, BlockStore.body_setBody_of_ne (by omega)⟩

/-- One header more, below the ones that are there. -/
theorem HasHeaders.setHeader {n : Nat} (h : HasHeaders chain target n store) :
    HasHeaders chain target (n - 1) (store.setHeader n (chain n).header) := by
  intro height hlt hle
  by_cases heq : height = n
  · subst heq
    exact BlockStore.header_setHeader
  · rw [BlockStore.header_setHeader_of_ne heq]
    exact h height (by omega) hle

theorem hasHeaders_self : HasHeaders chain target target store := by
  intro h hlt hle
  omega

section Places

variable (hchain : IsChain c chain target) (hmax : 1 ≤ options.maxFetchHeaders)
  (hjobs : 1 ≤ options.maxFetchBodies) (hknown : known < target)

include hchain in
theorem Certifies.height {consented : ConsentedHeader}
    (h : Certifies c blockchain chain target consented) (hpos : 1 ≤ target) :
    consented.height = target := by
  rw [ConsentedHeader.height, h.header, hchain.height target hpos le_rfl]

include hchain in
/-- Where the headers that are left begin. -/
theorem reaches_nextHeader {consented : ConsentedHeader} {n first : Nat}
    (hheight : store.getHeight = known)
    (hcertifies : Certifies c blockchain chain target consented) (hfirst : known < first)
    (hle : first ≤ n) (hn : n ≤ target) (hheaders : HasHeaders chain target (n - 1) store) :
    Reaches c blockchain options chain known target
      (bodiesLeft options known target + 3 * (n - known) + 2) store
      (nextHeader c consented (chain n).header (headersDown chain first n)) := by
  rcases Nat.eq_or_lt_of_le hle with rfl | hlt
  · -- all headers are taken
    rw [headersDown_of_le le_rfl, nextHeader]
    refine ⟨.readUnknown hheight hcertifies hfirst hn hheaders, ?_⟩
    rw [CatchUp.left, hchain.height first (by omega) hn]
    omega
  · obtain ⟨n, rfl⟩ : ∃ m, n = m + 1 := ⟨n - 1, by omega⟩
    rw [nextHeader_headersDown hchain (by omega) (by omega) (by omega)]
    refine ⟨.setHeader hheight hcertifies hfirst (by omega) (by omega) hheaders, ?_⟩
    rw [CatchUp.left, hchain.height n (by omega) (by omega)]
    omega

include hchain hmax hjobs hknown in
/-- `catchUpAsync` goes on. -/
theorem CatchUp.Follows.next {place : CatchUp} {reply : Reply} {write : Option Write}
    {next : Option CatchUp} (h : place.Follows c blockchain chain known target store)
    (hreply : Answers c blockchain chain target place reply)
    (hnext : place.next c blockchain options store reply = some (write, next)) :
    Reaches c blockchain options chain known target (place.left options known target)
        (land store write) next ∧
      KeepsBelow known store (land store write) := by
  cases h with
  | readHeight hheight =>
      obtain rfl : reply = .done := hreply
      rw [CatchUp.next, hheight, if_neg (Nat.not_le.mpr hknown)] at hnext
      cases hnext
      exact ⟨⟨.fetchConsentedHeader hheight, Nat.lt_succ_self _⟩, .refl⟩
  | fetchConsentedHeader hheight =>
      rcases hreply with ⟨server, consented, hserves, hget, hvalid, rfl⟩
      rw [CatchUp.next, hvalid] at hnext
      cases hnext
      have hheader := header_of_getConsentedHeader hserves (by omega) hget
      exact ⟨⟨.setLastHeader hheight ⟨hheader, hvalid⟩, Nat.lt_succ_self _⟩, .refl⟩
  | setLastHeader hheight hcertifies =>
      rename_i consented
      obtain rfl : reply = .done := hreply
      cases hnext
      have htarget := hchain.height target (by omega) le_rfl
      have hlast := hcertifies.height hchain (by omega)
      simp only [land, Write.apply, hlast, hcertifies.header]
      refine ⟨⟨.readUnknown hheight hcertifies hknown le_rfl hasHeaders_self.setHeader, ?_⟩,
        keepsBelow_setHeader hknown⟩
      rw [CatchUp.left, CatchUp.left, htarget]
      exact Nat.lt_succ_self _
  | readUnknown hheight hcertifies hlt hn hheaders =>
      rename_i consented n
      obtain rfl : reply = .done := hreply
      have hnheight := hchain.height n (by omega) hn
      simp only [CatchUp.next, hheight, hnheight] at hnext
      split at hnext
      · -- the headers have come down to the known ones
        rename_i hle
        cases hnext
        obtain rfl : n = known + 1 := by omega
        refine ⟨⟨.readKnown hheight hcertifies hheaders, ?_⟩, .refl⟩
        rw [CatchUp.left, CatchUp.left, hnheight]
        omega
      · rename_i hgt
        cases hnext
        refine ⟨⟨.fetchHeaders hheight hcertifies (by omega) (by omega) hn hheaders, ?_⟩, .refl⟩
        exact Nat.lt_succ_self _
  | fetchHeaders hheight hcertifies hfirst hlt hn hheaders =>
      rename_i consented n first
      rcases hreply with ⟨server, headers, hserves, hget, rfl⟩
      rw [getHeaders_of_serves hserves (by omega) hlt.le hn] at hget
      cases hget
      cases hnext
      have hnheight := hchain.height n (by omega) hn
      obtain ⟨n, rfl⟩ : ∃ m, n = m + 1 := ⟨n - 1, by omega⟩
      refine ⟨?_, .refl⟩
      change Reaches _ _ _ _ _ _ _ _ (nextHeader c consented _ (headersDown chain first (n + 1)))
      rw [nextHeader_headersDown hchain (by omega) (by omega) (by omega)]
      refine ⟨.setHeader hheight hcertifies hfirst (by omega) (by omega) hheaders, ?_⟩
      rw [CatchUp.left, CatchUp.left, hnheight, hchain.height n (by omega) (by omega)]
      omega
  | setHeader hheight hcertifies hfirst hle hn hheaders =>
      rename_i consented n first
      obtain rfl : reply = .done := hreply
      cases hnext
      have hnheight := hchain.height n (by omega) hn.le
      simp only [land, Write.apply, hnheight, CatchUp.left]
      exact ⟨reaches_nextHeader hchain hheight hcertifies hfirst hle hn.le hheaders.setHeader,
        keepsBelow_setHeader (by omega)⟩
  | readKnown hheight hcertifies hheaders =>
      rename_i consented
      obtain rfl : reply = .done := hreply
      have hlast := hcertifies.height hchain (by omega)
      rw [CatchUp.next, hheight, hlast] at hnext
      cases hnext
      refine ⟨⟨.fetchLoop hheight hcertifies hheaders ?_ ?_ ?_, ?_⟩, .refl⟩
      · intro job hmem
        rcases bounds_of_mem_splitJobs hmem with ⟨hlow, hle, hhigh, -⟩
        exact ⟨hlow, hle, hhigh⟩
      · intro task hmem
        cases hmem
      · intro h hlt hle
        exact .inr (.inl (exists_job hjobs le_rfl hlt hle))
      · rw [CatchUp.left, CatchUp.left, bodiesLeft]
        simp [tasksLeft]
  | fetchLoop hheight hcertifies hheaders hqueue htasks hcovered =>
      rename_i consented jobQueue inProgress
      obtain rfl : reply = .done := hreply
      -- the loop ends when all jobs are done
      cases jobQueue with
      | cons job jobQueue => cases hnext
      | nil =>
          cases inProgress with
          | cons task inProgress => cases hnext
          | nil =>
              cases hnext
              have hbodies : HasBodies chain target known store := by
                intro h hlt hle
                rcases hcovered h hlt hle with hstored | ⟨job, hmem, -⟩ | ⟨task, hmem, -⟩
                · exact hstored
                · cases hmem
                · cases hmem
              exact ⟨⟨.takeWriteLock hheight hcertifies hheaders hbodies, Nat.lt_succ_self _⟩, .refl⟩
  | takeWriteLock hheight hcertifies hheaders hbodies =>
      obtain rfl : reply = .done := hreply
      cases hnext
      exact ⟨⟨.readKnownHeight hheight hcertifies hheaders hbodies, Nat.lt_succ_self _⟩, .refl⟩
  | readKnownHeight hheight hcertifies hheaders hbodies =>
      rename_i consented
      obtain rfl : reply = .done := hreply
      have hlast := hcertifies.height hchain (by omega)
      simp only [CatchUp.next, Update.next, hheight, hlast, if_pos hknown] at hnext
      cases hnext
      exact ⟨⟨.setHeight hcertifies hheaders hbodies, Nat.lt_succ_self _⟩, .refl⟩
  | setHeight hcertifies hheaders hbodies =>
      rename_i consented
      obtain rfl : reply = .done := hreply
      cases hnext
      have hlast := hcertifies.height hchain (by omega)
      exact ⟨⟨.cacheHeight hlast hcertifies hheaders hbodies, Nat.lt_succ_self _⟩, .refl⟩
  | cacheHeight hheight hcertifies hheaders hbodies =>
      rename_i consented
      obtain rfl : reply = .done := hreply
      cases hnext
      have hlast := hcertifies.height hchain (by omega)
      exact ⟨⟨.setLastConsensus hheight hlast hcertifies hheaders hbodies, Nat.lt_succ_self _⟩, .refl⟩
  | setLastConsensus hheight hcached hcertifies hheaders hbodies =>
      obtain rfl : reply = .done := hreply
      cases hnext
      exact ⟨⟨hheight, hcached, ⟨_, hcertifies, rfl⟩, hheaders, hbodies⟩, .refl⟩

/-! ### Jobs -/

/-- How many bodies of a job are stored when it has gone on; `none` is its end. -/
def Job.stored (job : Job) : Option JobStep → Nat
  | some step => step.done
  | none => job.count

/-- The part of the job that is left, as the entry of the list that it is. -/
def Job.entry (job : Job) (step : Option JobStep) : List (Job × JobStep) :=
  (step.map fun step => (job, step)).toList

include hchain in
/-- A job goes on, by a body or without a write. -/
theorem JobStep.Follows.next {job : Job} {step : JobStep} {reply : Reply} {write : Option Write}
    {next : Option (Option JobStep)} (h : step.Follows chain job) (hwithin : job.Within known target)
    (hheaders : HasHeaders chain target known store) (hreply : JobAnswers chain job step reply)
    (hnext : step.next c store job reply = some (write, next)) :
    ∃ next', next = some next' ∧
      (∀ step' ∈ next', step'.Follows chain job ∧ step'.left job < step.left job) ∧
      0 < step.left job ∧
      (write = none ∧ job.stored next' = step.done ∨
        write = some (.body (job.first + step.done) (chain (job.first + step.done)).body) ∧
          job.stored next' = step.done + 1) := by
  rcases hwithin with ⟨hlow, hle, hhigh⟩
  have hcount : job.count = job.last - job.first + 1 := rfl
  cases step with
  | fetchBodies =>
      rcases hreply with ⟨server, bodies, hserves, hget, rfl⟩
      rw [getBodies_of_serves hserves (by omega) hle] at hget
      cases hget
      cases hnext
      refine ⟨_, rfl, ?_, Nat.succ_pos _, .inl ⟨rfl, rfl⟩⟩
      rintro step' ⟨⟩
      exact ⟨⟨by omega, rfl⟩, Nat.lt_succ_self _⟩
  | getHeader bodies i =>
      rcases h with ⟨hi, rfl⟩
      obtain rfl : reply = .done := hreply
      have hheader : store.getHeader (job.first + i) = .ok (chain (job.first + i)).header :=
        BlockStore.getHeader_eq_ok.mpr (hheaders _ (by omega) (by omega))
      have hbody : (job.heights.map fun h => (chain h).body)[i]? =
          some (chain (job.first + i)).body := by
        rw [List.getElem?_map, Job.heights, List.getElem?_range' hi, Option.map_some, Nat.one_mul]
      have hvalid := hchain.valid (job.first + i) (by omega) (by omega)
      simp only [JobStep.next, hheader, hbody, hvalid] at hnext
      cases hnext
      refine ⟨_, rfl, ?_, ?_, .inl ⟨rfl, rfl⟩⟩
      · rintro step' ⟨⟩
        refine ⟨⟨hi, rfl, rfl⟩, ?_⟩
        simp only [JobStep.left]
        omega
      · simp only [JobStep.left]
        omega
  | setBody bodies i body =>
      rcases h with ⟨hi, rfl, rfl⟩
      obtain rfl : reply = .done := hreply
      cases hnext
      refine ⟨_, rfl, ?_, ?_, .inr ⟨rfl, ?_⟩⟩
      · intro step' hstep
        split at hstep
        · rename_i hmore
          cases hstep
          refine ⟨⟨hmore, rfl⟩, ?_⟩
          simp only [JobStep.left]
          omega
        · cases hstep
      · simp only [JobStep.left]
        omega
      · -- the last body ends the job
        split
        · rfl
        · simp only [Job.stored, JobStep.done]
          omega

/-- Bodies of the chain that land leave the others as they are. -/
theorem stored_land {n h : Nat} {write : Option Write}
    (hwrite : write = none ∨ write = some (.body n (chain n).body))
    (h' : store.body h = some (chain h).body) : (land store write).body h = some (chain h).body := by
  rcases hwrite with rfl | rfl
  · exact h'
  · by_cases heq : h = n
    · subst heq
      exact BlockStore.body_setBody
    · exact (BlockStore.body_setBody_of_ne heq).trans h'

/-- What a job has not stored yet is left to it. -/
theorem Covered.jobNext {jobQueue : List Job} {before after : List (Job × JobStep)} {job : Job}
    {step : JobStep} {next : Option JobStep} {write : Option Write} {h : Nat} (hle : job.first ≤ job.last)
    (hmoves : write = none ∧ job.stored next = step.done ∨
      write = some (.body (job.first + step.done) (chain (job.first + step.done)).body) ∧
        job.stored next = step.done + 1)
    (hcovered : Covered chain store jobQueue (before ++ (job, step) :: after) h) :
    Covered chain (land store write) jobQueue (before ++ (job.entry next ++ after)) h := by
  have hcount : job.count = job.last - job.first + 1 := rfl
  have hwrite : write = none ∨
      write = some (.body (job.first + step.done) (chain (job.first + step.done)).body) :=
    hmoves.imp And.left And.left
  rcases hcovered with hstored | hqueued | ⟨task, hmem, hfirst, hlast⟩
  · exact .inl (stored_land hwrite hstored)
  · exact .inr (.inl hqueued)
  · rw [List.mem_append, List.mem_cons] at hmem
    rcases hmem with hbefore | rfl | hafter
    · exact .inr (.inr ⟨task, List.mem_append_left _ hbefore, hfirst, hlast⟩)
    · -- the job itself: the height is the one that is stored now, or is left to the rest of the job
      simp only at hfirst hlast
      by_cases hnow : h < job.first + job.stored next
      · rcases hmoves with ⟨-, hstored⟩ | ⟨rfl, hstored⟩
        · omega
        · obtain rfl : h = job.first + step.done := by omega
          exact .inl BlockStore.body_setBody
      · cases next with
        | none =>
            simp only [Job.stored] at hnow
            omega
        | some step' =>
            refine .inr (.inr ⟨(job, step'), ?_, Nat.not_lt.mp hnow, hlast⟩)
            exact List.mem_append_right _ (List.mem_append_left _ (List.mem_singleton_self _))
    · exact .inr (.inr ⟨task, List.mem_append_right _ (List.mem_append_right _ hafter), hfirst, hlast⟩)

include hchain in
/-- A job of the loop goes on. -/
theorem CatchUp.Follows.jobNext {consented : ConsentedHeader} {jobQueue : List Job}
    {before after : List (Job × JobStep)} {job : Job} {step : JobStep} {reply : Reply}
    {write : Option Write} {next : Option (Option JobStep)}
    (h : (CatchUp.fetchLoop consented jobQueue (before ++ (job, step) :: after)).Follows c blockchain
      chain known target store)
    (hreply : JobAnswers chain job step reply)
    (hnext : step.next c store job reply = some (write, next)) :
    ∃ next', next = some next' ∧
      Reaches c blockchain options chain known target
        ((CatchUp.fetchLoop consented jobQueue (before ++ (job, step) :: after)).left options known
          target)
        (land store write)
        (some (.fetchLoop consented jobQueue (before ++ (job.entry next' ++ after)))) ∧
      KeepsBelow known store (land store write) := by
  cases h with
  | fetchLoop hheight hcertifies hheaders hqueue htasks hcovered =>
      rcases htasks (job, step) (List.mem_append_right _ List.mem_cons_self) with ⟨hwithin, hstep⟩
      rcases hstep.next hchain hwithin hheaders hreply hnext with ⟨next', rfl, hnext', hpos, hmoves⟩
      have hland : (land store write).getHeight = store.getHeight ∧
          (land store write).header = store.header ∧ KeepsBelow known store (land store write) := by
        rcases hmoves with ⟨rfl, -⟩ | ⟨rfl, -⟩
        · exact ⟨rfl, rfl, .refl⟩
        · exact ⟨rfl, rfl, keepsBelow_setBody (by have := hwithin.1; omega)⟩
      refine ⟨next', rfl, ⟨.fetchLoop (hland.1.trans hheight) hcertifies ?_ hqueue ?_ ?_, ?_⟩, hland.2.2⟩
      · intro h hlt hle
        rw [hland.2.1]
        exact hheaders h hlt hle
      · intro task hmem
        simp only [List.mem_append] at hmem
        rcases hmem with hbefore | hentry | hafter
        · exact htasks task (List.mem_append_left _ hbefore)
        · cases next' with
          | none => cases hentry
          | some step' =>
              obtain rfl : task = (job, step') := List.mem_singleton.mp hentry
              exact ⟨hwithin, (hnext' step' rfl).1⟩
        · exact htasks task (List.mem_append_right _ (List.mem_cons_of_mem _ hafter))
      · intro h hlt hle
        exact (hcovered h hlt hle).jobNext hwithin.2.1 hmoves
      · -- the other jobs are where they were
        have hentry : tasksLeft (job.entry next') < step.left job := by
          cases next' with
          | none => exact hpos
          | some step' => exact (hnext' step' rfl).2
        simp only [CatchUp.left, tasksLeft, List.map_append, List.map_cons, List.sum_append,
          List.sum_cons] at hentry ⊢
        omega

/-- A job is taken from the queue. -/
theorem CatchUp.Follows.startJob {consented : ConsentedHeader} {jobQueue : List Job}
    {inProgress : List (Job × JobStep)} {job : Job}
    (h : (CatchUp.fetchLoop consented jobQueue inProgress).Follows c blockchain chain known target store)
    (hmem : job ∈ jobQueue) :
    Reaches c blockchain options chain known target
      ((CatchUp.fetchLoop consented jobQueue inProgress).left options known target) store
      (some (.fetchLoop consented (jobQueue.erase job) (inProgress ++ [(job, .fetchBodies)]))) := by
  cases h with
  | fetchLoop hheight hcertifies hheaders hqueue htasks hcovered =>
      refine ⟨.fetchLoop hheight hcertifies hheaders ?_ ?_ ?_, ?_⟩
      · intro other hother
        exact hqueue other (List.mem_of_mem_erase hother)
      · intro task htask
        rcases List.mem_append.mp htask with hold | hnew
        · exact htasks task hold
        · obtain rfl : task = (job, .fetchBodies) := List.mem_singleton.mp hnew
          exact ⟨hqueue job hmem, trivial⟩
      · intro h hlt hle
        rcases hcovered h hlt hle with hstored | ⟨other, hother, hbounds⟩ | ⟨task, htask, hbounds⟩
        · exact .inl hstored
        · by_cases heq : other = job
          · subst heq
            exact .inr (.inr ⟨(other, .fetchBodies), List.mem_append_right _ List.mem_cons_self,
              hbounds⟩)
          · exact .inr (.inl ⟨other, (List.mem_erase_of_ne heq).mpr hother, hbounds⟩)
        · exact .inr (.inr ⟨task, List.mem_append_left _ htask, hbounds⟩)
      · have hperm := ((List.perm_cons_erase hmem).map fun job : Job => 2 * job.count + 2).sum_eq
        simp only [List.map_cons, List.sum_cons] at hperm
        simp only [CatchUp.left, queueLeft, tasksLeft, List.map_append, List.sum_append, List.map_cons,
          List.map_nil, List.sum_cons, List.sum_nil, JobStep.left, hperm]
        omega

end Places

end Steps

/-! ## Runs -/

namespace Synchronizer

section Runs

variable {c : Crypto} {blockchain : Blockchain} {options : SynchronizerOptions}
  {chain : Nat → Block} {known target : Nat} {before : BlockStore} {s : Synchronizer}

/-- The steps that are left, from a place or the end. -/
def left (options : SynchronizerOptions) (known target : Nat) (s : Synchronizer) : Nat :=
  match s.catchUp with
  | some place => place.left options known target
  | none => 0

/-- A node that has got somewhere with catching up. -/
structure CatchesUp (c : Crypto) (blockchain : Blockchain) (chain : Nat → Block) (known target : Nat)
    (before : BlockStore) (s : Synchronizer) : Prop where
  ready : s.isReady = true
  chaining : s.chaining = none
  below : KeepsBelow known before s.store
  place : ∀ place, s.catchUp = some place → place.Follows c blockchain chain known target s.store
  finished : s.catchUp = none → Finished c blockchain chain known target s.store

/-- The node stays where it is with catching up, or goes on. -/
def GoesOn (c : Crypto) (blockchain : Blockchain) (options : SynchronizerOptions)
    (chain : Nat → Block) (known target : Nat) (before : BlockStore) (s s' : Synchronizer) : Prop :=
  s'.CatchesUp c blockchain chain known target before ∧
    (s'.catchUp = s.catchUp ∨ s'.left options known target < s.left options known target)

theorem left_pos (place : CatchUp) : 0 < place.left options known target := by
  cases place with
  | update consented stage => cases stage <;> exact Nat.succ_pos _
  | fetchHeaders consented last first count =>
      simp only [CatchUp.left, bodiesLeft]
      omega
  | readKnown consented =>
      simp only [CatchUp.left, bodiesLeft]
      omega
  | fetchLoop consented jobQueue inProgress =>
      simp only [CatchUp.left]
      omega
  | _ => exact Nat.succ_pos _

theorem CatchesUp.stay (h : s.CatchesUp c blockchain chain known target before) :
    GoesOn c blockchain options chain known target before s s := ⟨h, .inl rfl⟩

/-- What the rest of the node does meanwhile. -/
theorem CatchesUp.aside (h : s.CatchesUp c blockchain chain known target before)
    {blockQueue : List Pending} {store : BlockStore}
    (hstore : store = s.store ∨ ∃ root validatorSet, store = s.store.putValidatorSet root validatorSet) :
    GoesOn c blockchain options chain known target before s { s with blockQueue, store } := by
  rcases hstore with rfl | ⟨root, validatorSet, rfl⟩
  · exact ⟨⟨h.ready, h.chaining, h.below, h.place, h.finished⟩, .inl rfl⟩
  · refine ⟨⟨h.ready, h.chaining, h.below, ?_, ?_⟩, .inl rfl⟩
    · intro place hat
      -- only the map of validator sets is another one
      cases h.place place hat with
      | readHeight hheight => exact .readHeight hheight
      | fetchConsentedHeader hheight => exact .fetchConsentedHeader hheight
      | setLastHeader hheight hcertifies => exact .setLastHeader hheight hcertifies
      | readUnknown hheight hcertifies hlt hn hheaders =>
          exact .readUnknown hheight hcertifies hlt hn hheaders
      | fetchHeaders hheight hcertifies hfirst hlt hn hheaders =>
          exact .fetchHeaders hheight hcertifies hfirst hlt hn hheaders
      | setHeader hheight hcertifies hfirst hle hn hheaders =>
          exact .setHeader hheight hcertifies hfirst hle hn hheaders
      | readKnown hheight hcertifies hheaders => exact .readKnown hheight hcertifies hheaders
      | fetchLoop hheight hcertifies hheaders hqueue htasks hcovered =>
          exact .fetchLoop hheight hcertifies hheaders hqueue htasks hcovered
      | takeWriteLock hheight hcertifies hheaders hbodies =>
          exact .takeWriteLock hheight hcertifies hheaders hbodies
      | readKnownHeight hheight hcertifies hheaders hbodies =>
          exact .readKnownHeight hheight hcertifies hheaders hbodies
      | setHeight hcertifies hheaders hbodies => exact .setHeight hcertifies hheaders hbodies
      | cacheHeight hheight hcertifies hheaders hbodies =>
          exact .cacheHeight hheight hcertifies hheaders hbodies
      | setLastConsensus hheight hcached hcertifies hheaders hbodies =>
          exact .setLastConsensus hheight hcached hcertifies hheaders hbodies
    · intro hnone
      have hfinished := h.finished hnone
      exact ⟨hfinished.height, hfinished.cachedHeight, hfinished.lastConsensus, hfinished.headers,
        hfinished.bodies⟩

/-- A place that is reached. -/
theorem CatchesUp.reach (h : s.CatchesUp c blockchain chain known target before) {place : CatchUp}
    (hat : s.catchUp = some place) {store : BlockStore} {next : Option CatchUp}
    (hreaches : Reaches c blockchain options chain known target (place.left options known target)
      store next)
    (hkeeps : KeepsBelow known s.store store) :
    GoesOn c blockchain options chain known target before s { s with store, catchUp := next } := by
  have hleft : s.left options known target = place.left options known target := by
    simp only [left, hat]
  refine ⟨⟨h.ready, h.chaining, h.below.trans hkeeps, ?_, ?_⟩, .inr ?_⟩
  · rintro place' rfl
    exact hreaches.1
  · rintro rfl
    exact hreaches
  · rw [hleft]
    cases next with
    | none => exact left_pos place
    | some place' => exact hreaches.2

section Chain

variable (hchain : IsChain c chain target) (hmax : 1 ≤ options.maxFetchHeaders)
  (hjobs : 1 ≤ options.maxFetchBodies) (hknown : known < target)

include hchain hmax hjobs hknown in
theorem CatchesUp.catchUpNext (h : s.CatchesUp c blockchain chain known target before) {reply : Reply}
    (hhonest : Honest c blockchain chain target s (.catchUpNext reply)) :
    GoesOn c blockchain options chain known target before s
      (s.step c blockchain options (.catchUpNext reply)) := by
  cases hat : s.catchUp with
  | none =>
      have hadvance : s.advance c blockchain options (.catchUpNext reply) = (none, s) := by
        simp only [advance, hat]
      rw [step_of_advance_none h.ready hadvance]
      exact h.stay
  | some place =>
      -- nothing is chained, so the lock is free
      have hfree : ¬ (place.locks = true ∧ (s.chainingReads = true ∨ s.chainingWrites = true)) := by
        simp [chainingReads, chainingWrites, h.chaining]
      cases hnext : place.next c blockchain options s.store reply with
      | none =>
          have hadvance : s.advance c blockchain options (.catchUpNext reply) = (none, s) := by
            simp only [advance, hat, if_neg hfree, hnext]
          rw [step_of_advance_none h.ready hadvance]
          exact h.stay
      | some result =>
          rcases result with ⟨write, next⟩
          have hadvance : s.advance c blockchain options (.catchUpNext reply) =
              (write, { s with catchUp := next }) := by
            simp only [advance, hat, if_neg hfree, hnext]
          rcases (h.place place hat).next hchain hmax hjobs hknown (hhonest place hat) hnext with
            ⟨hreaches, hkeeps⟩
          rw [step_of_ready h.ready, hadvance]
          exact h.reach hat hreaches hkeeps

theorem CatchesUp.startJob (h : s.CatchesUp c blockchain chain known target before) (job : Job) :
    GoesOn c blockchain options chain known target before s
      (s.step c blockchain options (.startJob job)) := by
  have hstay : s.advance c blockchain options (.startJob job) = (none, s) →
      GoesOn c blockchain options chain known target before s
        (s.step c blockchain options (.startJob job)) := by
    intro hadvance
    rw [step_of_advance_none h.ready hadvance]
    exact h.stay
  by_cases hloop : ∃ consented jobQueue inProgress,
      s.catchUp = some (.fetchLoop consented jobQueue inProgress)
  · rcases hloop with ⟨consented, jobQueue, inProgress, hat⟩
    by_cases hjob : job ∈ jobQueue ∧ ∀ other ∈ jobQueue, job.last ≤ other.last
    · have hadvance : s.advance c blockchain options (.startJob job) =
          (none, { s with
            catchUp := some (.fetchLoop consented (jobQueue.erase job)
              (inProgress ++ [(job, .fetchBodies)])) }) := by
        simp only [advance, hat, if_pos hjob]
      rw [step_of_advance_none h.ready hadvance]
      exact h.reach hat ((h.place _ hat).startJob hjob.1) .refl
    · exact hstay (by simp only [advance, hat, if_neg hjob])
  · refine hstay ?_
    simp only [advance]
    split
    · rename_i consented jobQueue inProgress hat
      exact absurd ⟨consented, jobQueue, inProgress, hat⟩ hloop
    · rfl

include hchain in
theorem CatchesUp.jobNext (h : s.CatchesUp c blockchain chain known target before) {i : Nat}
    {reply : Reply} (hhonest : Honest c blockchain chain target s (.jobNext i reply)) :
    GoesOn c blockchain options chain known target before s
      (s.step c blockchain options (.jobNext i reply)) := by
  have hstay : s.advance c blockchain options (.jobNext i reply) = (none, s) →
      GoesOn c blockchain options chain known target before s
        (s.step c blockchain options (.jobNext i reply)) := by
    intro hadvance
    rw [step_of_advance_none h.ready hadvance]
    exact h.stay
  by_cases hloop : ∃ consented jobQueue inProgress,
      s.catchUp = some (.fetchLoop consented jobQueue inProgress)
  · rcases hloop with ⟨consented, jobQueue, inProgress, hat⟩
    cases hget : inProgress[i]? with
    | none => exact hstay (by simp only [advance, hat, hget])
    | some entry =>
        rcases entry with ⟨job, step⟩
        cases hnext : step.next c s.store job reply with
        | none => exact hstay (by simp only [advance, hat, hget, hnext])
        | some result =>
            rcases result with ⟨write, next⟩
            rcases BodyDownload.split_of_getElem hget with ⟨first, others, rfl, hset, herase⟩
            have hanswers := hhonest consented jobQueue _ job step hat hget
            have hfollows := h.place _ hat
            have hnexts := @CatchUp.Follows.jobNext _ _ options _ _ _ _ hchain _ _ _ _ _ _ _ _ _
              hfollows hanswers hnext
            rcases hnexts with ⟨next', rfl, hreaches, hkeeps⟩
            -- the job is replaced by what is left of it
            have hadvance : s.advance c blockchain options (.jobNext i reply) = (write, { s with
                catchUp := some (.fetchLoop consented jobQueue
                  (first ++ (job.entry next' ++ others))) }) := by
              cases next' with
              | none => simp only [advance, hat, hget, hnext, herase, Job.entry]; rfl
              | some step' => simp only [advance, hat, hget, hnext, hset, Job.entry]; rfl
            rw [step_of_ready h.ready, hadvance]
            exact h.reach hat hreaches hkeeps
  · refine hstay ?_
    simp only [advance]
    split
    · rename_i consented jobQueue inProgress hat
      exact absurd ⟨consented, jobQueue, inProgress, hat⟩ hloop
    · rfl

include hchain hmax hjobs hknown in
/-- What one event does. -/
theorem CatchesUp.step (h : s.CatchesUp c blockchain chain known target before) {event : Event}
    (hhonest : Honest c blockchain chain target s event) :
    GoesOn c blockchain options chain known target before s (s.step c blockchain options event) := by
  cases event with
  | catchUpNext reply => exact h.catchUpNext hchain hmax hjobs hknown hhonest
  | startJob job => exact h.startJob job
  | jobNext i reply => exact h.jobNext hchain hhonest
  | enqueueNewBlock pending =>
      rw [step_of_ready h.ready, advance]
      simp only
      split
      · exact h.stay
      · exact h.aside (.inl rfl)
  | enqueueBlock pending =>
      rw [step_of_advance_none (c := c) h.ready rfl]
      exact h.aside (.inl rfl)
  | setValidatorSet validatorSet =>
      rw [step_of_ready h.ready, advance]
      cases validatorSet.hash c with
      | ok root => exact h.aside (.inr ⟨root, validatorSet, rfl⟩)
      | error e => exact h.stay
  | start => exact hhonest.elim
  | dequeue pending => exact hhonest.elim
  | chain bodyFirst => exact hhonest.elim
  | catchUp bestHeight => exact hhonest.elim

include hchain hmax hjobs hknown in
theorem CatchesUp.run (h : s.CatchesUp c blockchain chain known target before) {events : List Event}
    (hhonest : Along (Synchronizer.step c blockchain options) s events
      (Honest c blockchain chain target)) :
    (s.run c blockchain options events).CatchesUp c blockchain chain known target before := by
  have hthroughout : Throughout (Synchronizer.step c blockchain options) s events
      (CatchesUp c blockchain chain known target before) :=
    hhonest.throughout h fun s event hs hevent => (hs.step hchain hmax hjobs hknown hevent).1
  exact hthroughout events [] (List.append_nil _).symm

include hchain hmax hjobs hknown in
/-- Each event that lets the code go on uses up a step. -/
theorem CatchesUp.length_le (h : s.CatchesUp c blockchain chain known target before)
    {events : List Event}
    (hgoes : Along (Synchronizer.step c blockchain options) s events fun s event =>
      Honest c blockchain chain target s event ∧
        (s.step c blockchain options event).catchUp ≠ s.catchUp) :
    events.length ≤ s.left options known target := by
  induction events generalizing s with
  | nil => exact Nat.zero_le _
  | cons event events ih =>
      rcases along_cons_iff.mp hgoes with ⟨⟨hhonest, hmoves⟩, hrest⟩
      rcases h.step hchain hmax hjobs hknown hhonest with ⟨hnext, hsame | hless⟩
      · exact absurd hsame hmoves
      · have hlength := ih hnext hrest
        rw [List.length_cons]
        omega

theorem exists_first {jobQueue : List Job} (h : jobQueue ≠ []) :
    ∃ job ∈ jobQueue, ∀ other ∈ jobQueue, job.last ≤ other.last := by
  have hnonempty : jobQueue.toFinset.Nonempty := (List.toFinset_nonempty_iff jobQueue).mpr h
  rcases Finset.exists_min_image jobQueue.toFinset Job.last hnonempty with ⟨job, hmem, hmin⟩
  refine ⟨job, List.mem_toFinset.mp hmem, ?_⟩
  intro other hother
  exact hmin other (List.mem_toFinset.mpr hother)

/-- Something that was reached is not where the code was. -/
theorem ne_of_reaches {place : CatchUp} {next : Option CatchUp} {store : BlockStore}
    (h : Reaches c blockchain options chain known target (place.left options known target) store next) :
    next ≠ some place := by
  rintro rfl
  exact lt_irrefl _ h.2

include hchain hmax hjobs hknown in
/-- As long as `catchUpAsync` has not ended, there is a reply or a job with which it goes on. -/
theorem CatchesUp.goesOn (h : s.CatchesUp c blockchain chain known target before)
    (hserved : ∃ store consented, Serves chain target store ∧
      Responder.getConsentedHeader store target = .ok consented ∧
      consented.consensus.validate c (consented.header.hash c) (blockchain.genesisHash c)
        consented.validatorSet = .ok ())
    (hunder : s.catchUp ≠ none) :
    ∃ event, Honest c blockchain chain target s event ∧
      (s.step c blockchain options event).catchUp ≠ s.catchUp := by
  rcases Option.ne_none_iff_exists'.mp hunder with ⟨place, hat⟩
  have hfollows := h.place place hat
  -- for most places a reply is enough with which `next` goes on
  have hreply : ∀ reply write next, Answers c blockchain chain target place reply →
      place.next c blockchain options s.store reply = some (write, next) →
      ∃ event, Honest c blockchain chain target s event ∧
        (s.step c blockchain options event).catchUp ≠ s.catchUp := by
    intro reply write next hanswers hnext
    have hfree : ¬ (place.locks = true ∧ (s.chainingReads = true ∨ s.chainingWrites = true)) := by
      simp [chainingReads, chainingWrites, h.chaining]
    have hadvance : s.advance c blockchain options (.catchUpNext reply) =
        (write, { s with catchUp := next }) := by
      simp only [advance, hat, if_neg hfree, hnext]
    refine ⟨.catchUpNext reply, ?_, ?_⟩
    · intro place' hat'
      cases hat.symm.trans hat'
      exact hanswers
    · rw [step_of_ready h.ready, hadvance, hat]
      exact ne_of_reaches (hfollows.next hchain hmax hjobs hknown hanswers hnext).1
  rcases hserved with ⟨server, consented, hserves, hget, hvalid⟩
  cases hfollows with
  | readHeight hheight => exact hreply .done _ _ rfl rfl
  | fetchConsentedHeader hheight =>
      refine hreply (.consentedHeader consented) none (some (.setLastHeader consented))
        ⟨server, consented, hserves, hget, hvalid, rfl⟩ ?_
      rw [CatchUp.next, hvalid]
  | setLastHeader hheight hcertifies => exact hreply .done _ _ rfl rfl
  | readUnknown hheight hcertifies hlt hn hheaders =>
      rename_i certified n
      by_cases hbottom : (chain n).header.height ≤ s.store.getHeight + 1
      · exact hreply .done _ _ rfl (if_pos hbottom)
      · exact hreply .done _ _ rfl (if_neg hbottom)
  | fetchHeaders hheight hcertifies hfirst hlt hn hheaders =>
      exact hreply (.headers _) _ _ ⟨server, _, hserves,
        getHeaders_of_serves hserves (by omega) hlt.le hn, rfl⟩ rfl
  | setHeader hheight hcertifies hfirst hle hn hheaders => exact hreply .done _ _ rfl rfl
  | readKnown hheight hcertifies hheaders => exact hreply .done _ _ rfl rfl
  | fetchLoop hheight hcertifies hheaders hqueue htasks hcovered =>
      rename_i certified jobQueue inProgress
      by_cases hempty : jobQueue = []
      · subst hempty
        cases inProgress with
        | nil => exact hreply .done _ _ rfl rfl
        | cons task others =>
            -- the first of the jobs in progress can go on
            rcases task with ⟨job, step⟩
            have htask : job.Within known target ∧ step.Follows chain job :=
              htasks (job, step) List.mem_cons_self
            rcases htask with ⟨⟨hlow, hle, hhigh⟩, hstep⟩
            have hcount : job.count = job.last - job.first + 1 := rfl
            have hjobReply : ∃ reply write next, JobAnswers chain job step reply ∧
                step.next c s.store job reply = some (write, next) := by
              cases step with
              | fetchBodies =>
                  exact ⟨.bodies _, _, _, ⟨server, _, hserves.mono hhigh,
                    getBodies_of_serves (hserves.mono hhigh) (by omega) hle, rfl⟩, rfl⟩
              | getHeader bodies i =>
                  rcases hstep with ⟨hi, -⟩
                  have hheader : s.store.getHeader (job.first + i) =
                      .ok (chain (job.first + i)).header :=
                    BlockStore.getHeader_eq_ok.mpr (hheaders _ (by omega) (by omega))
                  refine ⟨.done, ?_⟩
                  rw [JobStep.next, hheader]
                  cases bodies[i]? with
                  | none => exact ⟨_, _, rfl, rfl⟩
                  | some body =>
                      simp only
                      cases body.validate c (chain (job.first + i)).header with
                      | ok u => exact ⟨_, _, rfl, rfl⟩
                      | error e => exact ⟨_, _, rfl, rfl⟩
              | setBody bodies i body => exact ⟨.done, _, _, rfl, rfl⟩
            rcases hjobReply with ⟨reply, write, next, hanswers, hnext⟩
            have hnexts := @CatchUp.Follows.jobNext _ _ options _ _ _ _ hchain _ _ [] _ _ _ _ _ _
              (h.place _ hat) hanswers hnext
            rcases hnexts with ⟨next', rfl, hreaches, -⟩
            refine ⟨.jobNext 0 reply, ?_, ?_⟩
            · intro certified' jobQueue' inProgress' job' step' hat' hget'
              cases hat.symm.trans hat'
              cases hget'
              exact hanswers
            · have hadvance : s.advance c blockchain options (.jobNext 0 reply) = (write, { s with
                  catchUp := some (.fetchLoop certified [] (job.entry next' ++ others)) }) := by
                cases next' with
                | none => simp only [advance, hat, List.getElem?_cons_zero, hnext, Job.entry]; rfl
                | some step' =>
                    simp only [advance, hat, List.getElem?_cons_zero, hnext, Job.entry]; rfl
              rw [step_of_ready h.ready, hadvance, hat]
              exact ne_of_reaches hreaches
      · -- a job of the lowest heights is started
        rcases exists_first hempty with ⟨job, hmem, hmin⟩
        refine ⟨.startJob job, trivial, ?_⟩
        have hadvance : s.advance c blockchain options (.startJob job) =
            (none, { s with
              catchUp := some (.fetchLoop certified (jobQueue.erase job)
                (inProgress ++ [(job, .fetchBodies)])) }) := by
          simp only [advance, hat, if_pos (And.intro hmem hmin)]
        rw [step_of_advance_none h.ready hadvance, hat]
        have hreaches := @CatchUp.Follows.startJob _ _ options _ _ _ _ _ _ _ _ (h.place _ hat) hmem
        exact ne_of_reaches hreaches
  | takeWriteLock hheight hcertifies hheaders hbodies => exact hreply .done _ _ rfl rfl
  | readKnownHeight hheight hcertifies hheaders hbodies => exact hreply .done _ _ rfl rfl
  | setHeight hcertifies hheaders hbodies => exact hreply .done _ _ rfl rfl
  | cacheHeight hheight hcertifies hheaders hbodies => exact hreply .done _ _ rfl rfl
  | setLastConsensus hheight hcached hcertifies hheaders hbodies => exact hreply .done _ _ rfl rfl

end Chain

end Runs

/-- A node that catches up with the best one, while no block is chained and no request fails: in every
order of what happens, it is nowhere stuck, it goes on no more than `effort` times, and where it has ended
it has the chain up to the height of the best node, with a certificate for the last block. -/
theorem catches_up (c : Crypto) (blockchain : Blockchain) (options : SynchronizerOptions)
    (hmax : 1 ≤ options.maxFetchHeaders) (hjobs : 1 ≤ options.maxFetchBodies) (chain : Nat → Block)
    (target : Nat) (hchain : IsChain c chain target)
    (hserved : ∃ store consented, Serves chain target store ∧
      Responder.getConsentedHeader store target = .ok consented ∧
      consented.consensus.validate c (consented.header.hash c) (blockchain.genesisHash c)
        consented.validatorSet = .ok ())
    (s : Synchronizer) (hready : s.isReady = true) (hchaining : s.chaining = none)
    (hcatchUp : s.catchUp = some (.readHeight target)) (hknown : s.store.getHeight < target) :
    (∀ events, Along (step c blockchain options) s events (Honest c blockchain chain target) →
      let final := s.run c blockchain options events
      (final.catchUp = none → Adopted c blockchain chain target s.store final.store) ∧
      (final.catchUp ≠ none → ∃ event, Honest c blockchain chain target final event ∧
        (final.step c blockchain options event).catchUp ≠ final.catchUp)) ∧
    ∀ events, (Along (step c blockchain options) s events fun s event =>
        Honest c blockchain chain target s event ∧
          (s.step c blockchain options event).catchUp ≠ s.catchUp) →
      events.length ≤ effort options s.store.getHeight target := by
  have hstart : s.CatchesUp c blockchain chain s.store.getHeight target s.store := by
    refine ⟨hready, hchaining, .refl, ?_, ?_⟩
    · intro place hat
      cases hcatchUp.symm.trans hat
      exact .readHeight rfl
    · intro hnone
      cases hcatchUp.symm.trans hnone
  refine ⟨?_, ?_⟩
  · intro events hhonest
    have hfinal := hstart.run hchain hmax hjobs hknown hhonest
    refine ⟨?_, hfinal.goesOn hchain hmax hjobs hknown hserved⟩
    intro hnone
    have hfinished := hfinal.finished hnone
    have hheight : (s.run c blockchain options events).store.getHeight = target := by
      rw [BlockStore.getHeight, hfinished.height, hfinished.cachedHeight, ite_self]
    exact ⟨hfinished.height, hheight, hfinished.lastConsensus, hfinished.headers, hfinished.bodies,
      hfinal.below⟩
  · intro events hgoes
    have hlength := hstart.length_le hchain hmax hjobs hknown hgoes
    rwa [left, hcatchUp] at hlength

/-! ### Two blocks -/

/-- The block above the first one. -/
def linkedBlock : Block :=
  ⟨{ sampleGenesis.header with
      height := 2
      height_lt := BlockHeader.two_lt
      lastBlockHash := sampleGenesis.hash .transparent }, sampleGenesis.body⟩

def twoBlocks : Nat → Block := fun h => if h = 1 then sampleGenesis else linkedBlock

def linkedCertificate : Consensus := sampleCertificate (Consensus.sampleKey 1) linkedBlock.header

/-- A node that has both blocks. -/
def servingStore : BlockStore :=
  { BlockStore.empty with
    height := 2
    lastConsensus := some linkedCertificate
    header := fun h => some (twoBlocks h).header
    body := fun h => some (twoBlocks h).body
    validatorSet := fun _ => some soleValidatorSet }

/-- A node with an empty store that starts to catch up. -/
def catchingUp : Synchronizer :=
  { new true BlockStore.empty with catchUp := some (.readHeight 2) }

/-- The bodies are loaded by one job. -/
def catchUpEvents : List Event :=
  [.catchUpNext .done,
    .catchUpNext (.consentedHeader ⟨linkedBlock.header, linkedCertificate, soleValidatorSet⟩),
    .catchUpNext .done, .catchUpNext .done, .catchUpNext (.headers [sampleGenesis.header])] ++
  List.replicate 3 (.catchUpNext .done) ++
  [.startJob ⟨1, 2⟩, .jobNext 0 (.bodies [sampleGenesis.body, linkedBlock.body])] ++
  List.replicate 4 (.jobNext 0 .done) ++ List.replicate 6 (.catchUpNext .done)

theorem isChain_twoBlocks : IsChain .transparent twoBlocks 2 := by
  have hall : ∀ h ∈ [1, 2], (twoBlocks h).header.height = h ∧
      (h < 2 → (twoBlocks h).header.hash .transparent = (twoBlocks (h + 1)).header.lastBlockHash) ∧
      (twoBlocks h).body.validate .transparent (twoBlocks h).header = .ok () := by decide +kernel
  have hmem : ∀ h, 1 ≤ h → h ≤ 2 → h ∈ [1, 2] := by
    intro h hpos hle
    rw [List.mem_cons, List.mem_singleton]
    omega
  refine ⟨?_, ?_, ?_⟩
  · intro h hpos hle
    exact (hall h (hmem h hpos hle)).1
  · intro h hpos hlt
    exact (hall h (hmem h hpos hlt.le)).2.1 hlt
  · intro h hpos hle
    exact (hall h (hmem h hpos hle)).2.2

theorem serves_servingStore : Serves twoBlocks 2 servingStore :=
  ⟨by decide, fun _ _ _ => rfl, fun _ _ _ => rfl⟩

deriving instance DecidableEq for ConsentedHeader

/-- The reply is what a node with the two blocks answers. -/
def repliesFrom : CatchUp → Reply → Bool
  | .fetchConsentedHeader, .consentedHeader consented =>
      decide (Responder.getConsentedHeader servingStore 2 = .ok consented) &&
        decide (consented.consensus.validate .transparent (consented.header.hash .transparent)
          (sampleGenesis.hash .transparent) consented.validatorSet = .ok ())
  | .fetchHeaders _ _ first count, .headers headers =>
      decide (Responder.getHeaders servingStore first count = .ok headers)
  | .fetchConsentedHeader, _ | .fetchHeaders .., _ => false
  | _, .done => true
  | _, _ => false

def jobRepliesFrom (job : Job) : JobStep → Reply → Bool
  | .fetchBodies, .bodies bodies =>
      decide (job.last ≤ 2) && decide (Responder.getBodies servingStore job.first job.count = .ok bodies)
  | .getHeader .., .done | .setBody .., .done => true
  | _, _ => false

/-- The node has got an answer, and goes on. -/
def answered (s : Synchronizer) (event : Event) : Bool :=
  (match event with
    | .catchUpNext reply => s.catchUp.all (repliesFrom · reply)
    | .jobNext i reply => match s.catchUp with
      | some (.fetchLoop _ _ inProgress) => inProgress[i]?.all fun task =>
          jobRepliesFrom task.1 task.2 reply
      | _ => false
    | .startJob _ => true
    | _ => false) &&
  decide ((s.step .transparent ⟨sampleGenesis, soleValidatorSet⟩ ⟨1000, 100, 50⟩ event).left
    ⟨1000, 100, 50⟩ 0 2 < s.left ⟨1000, 100, 50⟩ 0 2)

theorem answers_of_repliesFrom {place : CatchUp} {reply : Reply} (h : repliesFrom place reply = true) :
    Answers .transparent ⟨sampleGenesis, soleValidatorSet⟩ twoBlocks 2 place reply := by
  cases place with
  | fetchConsentedHeader =>
      cases reply with
      | consentedHeader consented =>
          rcases (Bool.and_eq_true _ _).mp h with ⟨hget, hvalid⟩
          exact ⟨servingStore, consented, serves_servingStore, of_decide_eq_true hget,
            of_decide_eq_true hvalid, rfl⟩
      | _ => cases h
  | fetchHeaders consented last first count =>
      cases reply with
      | headers headers => exact ⟨servingStore, headers, serves_servingStore, of_decide_eq_true h, rfl⟩
      | _ => cases h
  | _ =>
      cases reply with
      | done => rfl
      | _ => cases h

theorem jobAnswers_of_jobRepliesFrom {job : Job} {step : JobStep} {reply : Reply}
    (h : jobRepliesFrom job step reply = true) : JobAnswers twoBlocks job step reply := by
  cases step with
  | fetchBodies =>
      cases reply with
      | bodies bodies =>
          rcases (Bool.and_eq_true _ _).mp h with ⟨hle, hget⟩
          exact ⟨servingStore, bodies, serves_servingStore.mono (of_decide_eq_true hle),
            of_decide_eq_true hget, rfl⟩
      | _ => cases h
  | _ =>
      cases reply with
      | done => rfl
      | _ => cases h

/-- The whole catch up, by a node with the two blocks. -/
theorem answered_catchUpEvents :
    Along (step .transparent ⟨sampleGenesis, soleValidatorSet⟩ ⟨1000, 100, 50⟩) catchingUp
        catchUpEvents (fun s event => answered s event = true) ∧
      (catchingUp.run .transparent ⟨sampleGenesis, soleValidatorSet⟩ ⟨1000, 100, 50⟩
        catchUpEvents).catchUp.isNone = true := by
  decide +kernel

theorem honest_of_answered {s : Synchronizer} {event : Event} (h : answered s event = true) :
    Honest .transparent ⟨sampleGenesis, soleValidatorSet⟩ twoBlocks 2 s event ∧
      (s.step .transparent ⟨sampleGenesis, soleValidatorSet⟩ ⟨1000, 100, 50⟩ event).catchUp ≠
        s.catchUp := by
  rcases (Bool.and_eq_true _ _).mp h with ⟨hreplies, hless⟩
  constructor
  · cases event with
    | catchUpNext reply =>
        intro place hat
        rw [hat] at hreplies
        exact answers_of_repliesFrom hreplies
    | jobNext i reply =>
        intro consented jobQueue inProgress job step hat htask
        simp only [hat, htask] at hreplies
        exact jobAnswers_of_jobRepliesFrom hreplies
    | startJob job => exact trivial
    | _ => cases hreplies
  · intro hsame
    have hless := of_decide_eq_true hless
    unfold left at hless
    rw [hsame] at hless
    exact lt_irrefl _ hless

/-- The node has both blocks then, after no more steps than it can take. -/
theorem catches_up_twoBlocks :
    Adopted .transparent ⟨sampleGenesis, soleValidatorSet⟩ twoBlocks 2 catchingUp.store
        (catchingUp.run .transparent ⟨sampleGenesis, soleValidatorSet⟩ ⟨1000, 100, 50⟩
          catchUpEvents).store ∧
      catchUpEvents.length ≤ effort ⟨1000, 100, 50⟩ catchingUp.store.getHeight 2 := by
  have hcatches := catches_up .transparent ⟨sampleGenesis, soleValidatorSet⟩ ⟨1000, 100, 50⟩
    (by decide) (by decide) twoBlocks 2 isChain_twoBlocks
    ⟨servingStore, ⟨linkedBlock.header, linkedCertificate, soleValidatorSet⟩, serves_servingStore, rfl,
      by decide +kernel⟩ catchingUp rfl rfl rfl (by decide)
  rcases answered_catchUpEvents with ⟨hanswered, hended⟩
  constructor
  · refine (hcatches.1 catchUpEvents ?_).1 (Option.isNone_iff_eq_none.mp hended)
    intro before event after hevents
    exact (honest_of_answered (hanswered before event after hevents)).1
  · refine hcatches.2 catchUpEvents ?_
    intro before event after hevents
    exact honest_of_answered (hanswered before event after hevents)

end Synchronizer

end ChainCore
end UniqysKit
