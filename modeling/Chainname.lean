import Chainname.Library.Memo
import Chainname.Ghostdag.Store
import Chainname.Ghostdag.Reachability
import Chainname.Ghostdag.Mergeset
import Chainname.Ghostdag.Locality
import Chainname.Ghostdag.Invariant
import Chainname.Ghostdag.Determinism
import Chainname.Ghostdag.Linearise
import Chainname.Execution.State
import Chainname.Primitives.Params
import Chainname.Chain.Journal
import Chainname.Execution.Evm
import Chainname.Chain.Bodies
import Chainname.Chain.Parallel
import Chainname.Chain.Executor
import Chainname.Chain.Rounds
import Chainname.Chain.GasBudget
import Chainname.Chain.Bookkeeping
import Chainname.Chain.Refusal
import Chainname.Chain.LocalEvm
import Chainname.Chain.Undisturbed
import Chainname.Chain.Detours
import Chainname.Chain.RoundSoundness
import Chainname.Execution.CodeByHash
import Chainname.Chain.CodedRounds
import Chainname.Execution.Commit
import Chainname.Execution.Genesis
import Chainname.Chain.Replay
import Chainname.Chain.Reorg
import Chainname.Ghostdag.Growth
import Chainname.Chain.Follow
import Chainname.Chain.NodeRun
import Chainname.Ghostdag.Queries
import Chainname.Chain.Completeness
import Chainname.Ghostdag.Mining
import Chainname.Net.Message
import Chainname.Net.Sync
import Chainname.Net.Effects
import Chainname.Net.Handshake
import Chainname.Net.BodyAgreement
import Chainname.Net.Confluence
import Chainname.Library.Rlp
import Chainname.Net.Codec
import Chainname.Net.Receivable
import Chainname.Net.Runtime
import Chainname.Net.Ban
import Chainname.Rpc.Pool
import Chainname.Rpc.Backend
import Chainname.Chain.Nonces
import Chainname.Library.StackIndex
import Chainname.Rpc.Pending
import Chainname.Rpc.TxIndex
import Chainname.Rpc.LongReorg
import Chainname.Ghostdag.Representation
import Chainname.Ghostdag.BluePast
import Chainname.Ghostdag.ForkChoice
import Chainname.Ghostdag.Layering
import Chainname.Chain.RoundRecovery
import Chainname.Chain.UndoInverse
import Chainname.Net.OrphanPool
import Chainname.Net.HeldBodies
import Chainname.Ghostdag.Colouring
import Chainname.Ghostdag.AnticoneSizes
import Chainname.Ghostdag.Cluster
import Chainname.Net.Requests
import Chainname.Library.Index
import Chainname.Rpc.PoolIndex
import Chainname.Library.GreedyMerge
import Chainname.Rpc.Eviction
import Chainname.Rpc.Payment
import Chainname.Rpc.Selection
import Chainname.Library.Rounding
import Chainname.Primitives.Compact
import Chainname.Primitives.Asert
import Chainname.Library.RlpCanonical
import Chainname.Net.Canonical
import Chainname.Library.Framing
import Chainname.Net.Frames
import Chainname.Net.Retries
import Chainname.Net.StrayRequests
import Chainname.Library.Numbering
import Chainname.Rpc.Json
import Chainname.Rpc.Logs
import Chainname.Rpc.LogFilter
import Chainname.Rpc.LogViews
import Chainname.Primitives.Structure
import Chainname.Consensus.Validate
import Chainname.Consensus.Miner
import Chainname.Net.Actions
import Chainname.Net.Provenance
import Chainname.Net.Acceptance
import Chainname.Chain.Advance
import Chainname.Testkit.Replica
import Chainname.Testkit.Network
import Chainname.Library.Agenda
import Chainname.Testkit.Rng
import Chainname.Testkit.Wallet
import Chainname.Testkit.Simulation
import Chainname.Testkit.SimEffects
import Chainname.Testkit.Clockwork
import Chainname.Testkit.MiningLog
import Chainname.Testkit.Refinement
import Chainname.Testkit.Convergence
import Chainname.Node.Dev
import Chainname.Chain.Metering
import Chainname.Rpc.Blocks
import Chainname.Rpc.Explorer
import Chainname.Rpc.Dag
