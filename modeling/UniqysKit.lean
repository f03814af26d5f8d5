import UniqysKit.AsyncLoop
import UniqysKit.Blockchain.Block
import UniqysKit.Blockchain.BlockStore
import UniqysKit.Blockchain.Codec
import UniqysKit.Blockchain.Commitment
import UniqysKit.Blockchain.Consensus
import UniqysKit.Blockchain.Formats
import UniqysKit.Blockchain.InclusionProof
import UniqysKit.Blockchain.MerkleTree
import UniqysKit.Blockchain.StoredBlocks
import UniqysKit.BufferWriter
import UniqysKit.ChainCore.Agreement
import UniqysKit.ChainCore.BodyDownload
import UniqysKit.ChainCore.BodyJobs
import UniqysKit.ChainCore.CaughtUp
import UniqysKit.ChainCore.ChainAgreement
import UniqysKit.ChainCore.CommitCertificates
import UniqysKit.ChainCore.CommittedChain
import UniqysKit.ChainCore.ConsensusEngine
import UniqysKit.ChainCore.ConsensusState
import UniqysKit.ChainCore.EngineChanges
import UniqysKit.ChainCore.EngineFrame
import UniqysKit.ChainCore.EngineInvariant
import UniqysKit.ChainCore.EngineParts
import UniqysKit.ChainCore.EngineSteps
import UniqysKit.ChainCore.EngineTrace
import UniqysKit.ChainCore.Executor
import UniqysKit.ChainCore.FailedWrites
import UniqysKit.ChainCore.HashLinks
import UniqysKit.ChainCore.HeaderDownload
import UniqysKit.ChainCore.HeightAuthority
import UniqysKit.ChainCore.Locks
import UniqysKit.ChainCore.NewHeight
import UniqysKit.ChainCore.NodePicks
import UniqysKit.ChainCore.OwnVotes
import UniqysKit.ChainCore.PoolCalls
import UniqysKit.ChainCore.ProposalValidity
import UniqysKit.ChainCore.ProposeStep
import UniqysKit.ChainCore.RemoteNode
import UniqysKit.ChainCore.RoundProgress
import UniqysKit.ChainCore.ServedConsensus
import UniqysKit.ChainCore.Synchronizer
import UniqysKit.ChainCore.SynchronizerSteps
import UniqysKit.ChainCore.TransactionPool
import UniqysKit.ChainCore.VoteCount
import UniqysKit.ChainCore.VoteTally
import UniqysKit.ChainCore.WaitSteps
import UniqysKit.EasyFramework.AccessSteps
import UniqysKit.EasyFramework.Accesses
import UniqysKit.EasyFramework.AlikeStates
import UniqysKit.EasyFramework.Calls
import UniqysKit.EasyFramework.CompareAndSwap
import UniqysKit.EasyFramework.ConcurrentWrites
import UniqysKit.EasyFramework.Contents
import UniqysKit.EasyFramework.Controller
import UniqysKit.EasyFramework.Counters
import UniqysKit.EasyFramework.Events
import UniqysKit.EasyFramework.Execution
import UniqysKit.EasyFramework.FailedTransaction
import UniqysKit.EasyFramework.HeaderObjects
import UniqysKit.EasyFramework.InterleavedCalls
import UniqysKit.EasyFramework.Items
import UniqysKit.EasyFramework.KeySpaces
import UniqysKit.EasyFramework.LockedSection
import UniqysKit.EasyFramework.MemcachedProtocol
import UniqysKit.EasyFramework.Numbers
import UniqysKit.EasyFramework.PacketBoundaries
import UniqysKit.EasyFramework.Processes
import UniqysKit.EasyFramework.Replay
import UniqysKit.EasyFramework.RequestHeaders
import UniqysKit.EasyFramework.Restart
import UniqysKit.EasyFramework.Soundness
import UniqysKit.EasyFramework.State
import UniqysKit.EasyFramework.Text
import UniqysKit.EasyFramework.Transaction
import UniqysKit.EasyFramework.TransactionFormat
import UniqysKit.EasyFramework.TransactionParts
import UniqysKit.EasyFramework.TransactionProofs
import UniqysKit.EasyFramework.Transfers
import UniqysKit.EasyFramework.ValidatorPowers
import UniqysKit.EasyFramework.Writes
import UniqysKit.EventProvider.Consent
import UniqysKit.EventProvider.Depositable
import UniqysKit.EventProvider.Ethereum
import UniqysKit.EventProvider.ParsedTransaction
import UniqysKit.EventProvider.Removal
import UniqysKit.EventProvider.Solidity
import UniqysKit.EventProvider.Stakable
import UniqysKit.EventProvider.Uniqys
import UniqysKit.EventProvider.ValidatorSet
import UniqysKit.Library.BigEndian
import UniqysKit.Library.BinarySearch
import UniqysKit.Library.Doubles
import UniqysKit.Library.EntryMap
import UniqysKit.Library.Fallible
import UniqysKit.Library.Format
import UniqysKit.Library.Heap
import UniqysKit.Library.Interleaving
import UniqysKit.Library.LastEntry
import UniqysKit.Library.LeafTree
import UniqysKit.Library.Loops
import UniqysKit.Library.Patricia
import UniqysKit.Library.Process
import UniqysKit.Library.Program
import UniqysKit.Library.Runs
import UniqysKit.Library.Slots
import UniqysKit.Library.Sorting
import UniqysKit.Library.Voting
import UniqysKit.Library.WholeDoubles
import UniqysKit.Lock
import UniqysKit.MerklePatriciaTrie.Agreement
import UniqysKit.MerklePatriciaTrie.Iteration
import UniqysKit.MerklePatriciaTrie.MerkleProof
import UniqysKit.MerklePatriciaTrie.Node
import UniqysKit.MerklePatriciaTrie.NodeFormat
import UniqysKit.MerklePatriciaTrie.NodeReads
import UniqysKit.MerklePatriciaTrie.ProofCompleteness
import UniqysKit.MerklePatriciaTrie.ProofOptimization
import UniqysKit.MerklePatriciaTrie.ProofPlaces
import UniqysKit.MerklePatriciaTrie.ProofSoundness
import UniqysKit.MerklePatriciaTrie.Refinement
import UniqysKit.MerklePatriciaTrie.Relabeling
import UniqysKit.MerklePatriciaTrie.Representation
import UniqysKit.MerklePatriciaTrie.Rollback
import UniqysKit.MerklePatriciaTrie.Save
import UniqysKit.MerklePatriciaTrie.SteppedUpdate
import UniqysKit.MerklePatriciaTrie.Trie
import UniqysKit.MerklePatriciaTrie.TrieStore
import UniqysKit.MerklePatriciaTrie.Updates
import UniqysKit.P2pNetwork.BadFrames
import UniqysKit.P2pNetwork.MessageChannel
import UniqysKit.PriorityQueue
import UniqysKit.Protocol.Canonical
import UniqysKit.Protocol.Exchange
import UniqysKit.Protocol.Message
import UniqysKit.Serialize
import UniqysKit.Signature
import UniqysKit.Store
