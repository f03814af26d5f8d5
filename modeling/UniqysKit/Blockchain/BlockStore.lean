import Mathlib.Logic.Function.Basic
import UniqysKit.Blockchain.Block

/-!
# The block store

`block-store.ts` and `blockchain.ts`.  The keys of the store are told apart by their first byte and
their length, so it is five maps; what is written to one is read back from it as it was.

`setHeight` first writes the height and then, when that is done, the cache.  Between the two,
`getHeight` still answers with the old height.
-/

namespace UniqysKit

structure BlockStore where
  /-- 0 where nothing is stored -/
  height : Nat
  /-- `_height`, 0 where it is not set: both are false to the test of `getHeight` -/
  cachedHeight : Nat
  lastConsensus : Option Consensus
  header : Nat → Option BlockHeader
  body : Nat → Option BlockBody
  validatorSet : Hash → Option ValidatorSet

namespace BlockStore

def empty : BlockStore where
  height := 0
  cachedHeight := 0
  lastConsensus := none
  header := fun _ => none
  body := fun _ => none
  validatorSet := fun _ => none

variable (store : BlockStore)

def getHeight : Nat := if store.cachedHeight = 0 then store.height else store.cachedHeight

def getLastConsensus : Result Consensus :=
  match store.lastConsensus with
  | some consensus => .ok consensus
  | none => .error ⟨"not found lastConsensus"⟩

def getHeader (height : Nat) : Result BlockHeader :=
  match store.header height with
  | some header => .ok header
  | none => .error ⟨s!"not found header({height})"⟩

def getBody (height : Nat) : Result BlockBody :=
  match store.body height with
  | some body => .ok body
  | none => .error ⟨s!"not found body({height})"⟩

/-- The message would also hold the root, which has no text of its own. -/
def getValidatorSet (root : Hash) : Result ValidatorSet :=
  match store.validatorSet root with
  | some validatorSet => .ok validatorSet
  | none => .error ⟨"not found validatorSet([object Object])"⟩

/-! ## Writing -/

/-- The first part of `setHeight`. -/
def setHeight (height : Nat) : BlockStore := { store with height }

/-- The second part of `setHeight`. -/
def cacheHeight (height : Nat) : BlockStore := { store with cachedHeight := height }

def setLastConsensus (consensus : Consensus) : BlockStore :=
  { store with lastConsensus := some consensus }

def setHeader (height : Nat) (header : BlockHeader) : BlockStore :=
  { store with header := Function.update store.header height (some header) }

def setBody (height : Nat) (body : BlockBody) : BlockStore :=
  { store with body := Function.update store.body height (some body) }

/-- The set is stored under its hash, `root`. -/
def putValidatorSet (root : Hash) (validatorSet : ValidatorSet) : BlockStore :=
  { store with validatorSet := Function.update store.validatorSet root (some validatorSet) }

def setValidatorSet (c : Crypto) (validatorSet : ValidatorSet) : Result BlockStore := do
  return store.putValidatorSet (← validatorSet.hash c) validatorSet

variable {store}

@[simp] theorem height_setHeader {h : Nat} {header : BlockHeader} :
    (store.setHeader h header).height = store.height := rfl

@[simp] theorem getHeight_setHeader {h : Nat} {header : BlockHeader} :
    (store.setHeader h header).getHeight = store.getHeight := rfl

@[simp] theorem header_setHeader {h : Nat} {header : BlockHeader} :
    (store.setHeader h header).header h = some header := by
  simp [setHeader]

theorem header_setHeader_of_ne {h h' : Nat} {header : BlockHeader} (hne : h' ≠ h) :
    (store.setHeader h header).header h' = store.header h' := by
  simp [setHeader, hne]

@[simp] theorem body_setBody {h : Nat} {body : BlockBody} :
    (store.setBody h body).body h = some body := by
  simp [setBody]

theorem body_setBody_of_ne {h h' : Nat} {body : BlockBody} (hne : h' ≠ h) :
    (store.setBody h body).body h' = store.body h' := by
  simp [setBody, hne]

@[simp] theorem header_putValidatorSet {root : Hash} {validatorSet : ValidatorSet} :
    (store.putValidatorSet root validatorSet).header = store.header := rfl

@[simp] theorem validatorSet_putValidatorSet {root : Hash} {validatorSet : ValidatorSet} :
    (store.putValidatorSet root validatorSet).validatorSet root = some validatorSet := by
  simp [putValidatorSet]

theorem validatorSet_putValidatorSet_of_ne {root root' : Hash} {validatorSet : ValidatorSet}
    (hne : root' ≠ root) :
    (store.putValidatorSet root validatorSet).validatorSet root' = store.validatorSet root' := by
  simp [putValidatorSet, hne]

/-- Writing what is there changes nothing. -/
theorem setHeader_eq_self {h : Nat} {header : BlockHeader} (heq : store.header h = some header) :
    store.setHeader h header = store := by
  unfold setHeader
  rw [← heq, Function.update_eq_self]

theorem setBody_eq_self {h : Nat} {body : BlockBody} (heq : store.body h = some body) :
    store.setBody h body = store := by
  unfold setBody
  rw [← heq, Function.update_eq_self]

theorem getHeight_setHeight_le {h : Nat} (hle : store.getHeight ≤ h) :
    (store.setHeight h).getHeight ≤ h := by
  change (if store.cachedHeight = 0 then h else store.cachedHeight) ≤ h
  unfold getHeight at hle
  split
  · exact le_rfl
  · rename_i hcached
    rwa [if_neg hcached] at hle

theorem getHeight_cacheHeight {h : Nat} (hpos : 0 < h) : (store.cacheHeight h).getHeight = h := by
  unfold getHeight
  exact if_neg hpos.ne'

theorem getHeader_eq_ok {h : Nat} {header : BlockHeader} :
    store.getHeader h = .ok header ↔ store.header h = some header := by
  unfold getHeader
  split
  · rename_i heq
    simp [heq]
  · rename_i heq
    simp [heq]

theorem getValidatorSet_eq_ok {root : Hash} {validatorSet : ValidatorSet} :
    store.getValidatorSet root = .ok validatorSet ↔ store.validatorSet root = some validatorSet := by
  unfold getValidatorSet
  split
  · rename_i heq
    simp [heq]
  · rename_i heq
    simp [heq]

end BlockStore

/-! ## The blockchain -/

structure Blockchain where
  genesisBlock : Block
  initialValidatorSet : ValidatorSet

namespace Blockchain

variable (c : Crypto) (blockchain : Blockchain)

def genesisHash : Hash := blockchain.genesisBlock.hash c

/-- What `ready` makes of the store of a node that starts. -/
def ready : Action BlockStore Unit := do
  if (← get).getHeight = 0 then
    modify fun store => store.setHeader 1 blockchain.genesisBlock.header
    modify fun store => store.setBody 1 blockchain.genesisBlock.body
  let root ← Action.fromResult (blockchain.initialValidatorSet.hash c)
  modify fun store => store.putValidatorSet root blockchain.initialValidatorSet
  let storedGenesis ← Action.fromResult ((← get).getHeader 1)
  if storedGenesis.hash c ≠ blockchain.genesisHash c then
    throw ⟨"Stored genesis block is invalid. You need to reset store."⟩

/-- The height of the header that names the validator set of a height. -/
def definingHeight (height : Nat) : Nat := if height = 1 then 1 else height - 1

def validatorSetOf (store : BlockStore) (height : Nat) : Result ValidatorSet := do
  let header ← store.getHeader (definingHeight height)
  store.getValidatorSet header.nextValidatorSetRoot

theorem validatorSetOf_eq_ok {store : BlockStore} {height : Nat} {validatorSet : ValidatorSet} :
    validatorSetOf store height = .ok validatorSet ↔
      ∃ header, store.header (definingHeight height) = some header ∧
        store.validatorSet header.nextValidatorSetRoot = some validatorSet := by
  unfold validatorSetOf
  rw [Result.bind_eq_ok]
  constructor
  · rintro ⟨header, hheader, hset⟩
    exact ⟨header, BlockStore.getHeader_eq_ok.mp hheader, BlockStore.getValidatorSet_eq_ok.mp hset⟩
  · rintro ⟨header, hheader, hset⟩
    exact ⟨header, BlockStore.getHeader_eq_ok.mpr hheader, BlockStore.getValidatorSet_eq_ok.mpr hset⟩

def consensusOf (store : BlockStore) (height : Nat) : Result Consensus := do
  let chainHeight := store.getHeight
  if chainHeight = height then store.getLastConsensus
  else
    let block ← store.getBody (height + 1)
    return block.lastBlockConsensus

end Blockchain

end UniqysKit
