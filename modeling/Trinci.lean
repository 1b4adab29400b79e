import Trinci.StepMachines
import Trinci.Crypto
import Trinci.CoreModels
import Trinci.NodeModels
import Trinci.FirstMatch
import Trinci.ConsensusService
import Trinci.ConsensusProposals
import Trinci.ConsensusEffects
import Trinci.ConsensusVotes
import Trinci.ConsensusBlocks
import Trinci.ConsensusConsolidations
import Trinci.ConsensusExecution
import Trinci.ConsensusQuorums
import Trinci.ConsensusTables
import Trinci.ConsensusAgreement
import Trinci.ConsensusLookups
import Trinci.ConsensusPruning
import Trinci.NodeStore
import Trinci.DRand
import Trinci.StatefulSteps
import Trinci.WasmMachine
import Trinci.WasmService
import Trinci.LeaderDraws
import Trinci.ExecutionEffects
import Trinci.ExecutorRules
import Trinci.ExecutorRelations
import Trinci.TransactionAuthentication
import Trinci.TransactionService
import Trinci.BlockService
import Trinci.ForkLedgers
import Trinci.Node
import Trinci.Replays
import Trinci.PlayersReaders
import Trinci.FuelConversion
import Trinci.HostPrograms
import Trinci.WmLocal
import Trinci.TransactionShapes
import Trinci.CachedModules
import Trinci.CallTrees
import Trinci.ModuleCache
import Trinci.FuelCharges
import Trinci.FuelThrift
import Trinci.TransactionFailures
import Trinci.NestedCalls
import Trinci.MachineLogs
import Trinci.BulkBudget
import Trinci.DataCommitments
import Trinci.WmDeterminism
import Trinci.ExecutionLockstep
import Trinci.ExecutionDeterminism
import Trinci.ServiceSteps
import Trinci.ExecutionFrames
import Trinci.LiveNode
import Trinci.LiveHeights
import Trinci.LiveRounds
import Trinci.LiveLeaders
import Trinci.LivePool
import Trinci.LiveBuilds
import Trinci.LiveBlocks
import Trinci.Multihash
import Trinci.EventService
import Trinci.UpdateService
import Trinci.SocketService
import Trinci.PoolContents
import Trinci.PoolTriggers
import Trinci.AlignmentSessions
import Trinci.FailedConsolidations
import Trinci.LiveChain
import Trinci.PeerBlocks
import Trinci.TextCuts
import Trinci.ErrorTexts
import Trinci.KeyPatterns
import Trinci.AccountIds
import Trinci.IntegrityPanics
import Trinci.ContractBinding
import Trinci.FuelLimits
import Trinci.BulkTranscripts
import Trinci.BulkCharges
import Trinci.NodeLimits
import Trinci.FailedTransactions
import Trinci.ReceiptEvents
import Trinci.Radix
import Trinci.DistinctIds
import Trinci.DRandService
import Trinci.WeightedLists
import Trinci.LeaderWeights
import Trinci.ExternalBlocks
import Trinci.AlignmentTraces
import Trinci.PeerReplies
import Trinci.Groupings
import Trinci.BestBlock
import Trinci.BlockFilling
import Trinci.StoredTransactions
import Trinci.SocketSessions
import Trinci.SeedWords
import Trinci.CacheBound
import Trinci.ShortWrites
import Trinci.WasmMemory
import Trinci.RestApi
import Trinci.PackedMessages
import Trinci.TreeWrites
import Trinci.BlockWrites
import Trinci.ReceiptLedgers
import Trinci.HashChains
import Trinci.LiveLedger
import Trinci.PeerRequests
import Trinci.P2PService
import Trinci.WaitingTables
import Trinci.PendingRequests
import Trinci.PeerNetwork
import Trinci.ConsensusRequests
import Trinci.LiveVotes
import Trinci.ChainAgreement
import Trinci.TransactionSources
import Trinci.NetworkSources
import Trinci.ConsensusKeys
import Trinci.LeaderRestarts
import Trinci.KeyedAccounts
