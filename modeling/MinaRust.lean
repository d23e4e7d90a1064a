import MinaRust.ParallelScan.Run
import MinaRust.Ledger.Reparent
import MinaRust.TransactionPool.Reorg
import MinaRust.TransactionPool.Candidates
import MinaRust.TransactionPool.GossipPool
import MinaRust.PendingCoinbase.Separation
import MinaRust.Core.PendingRequests
import MinaRust.SnarkPool.Convergence
import MinaRust.Consensus.Density
import MinaRust.Consensus.CandidateOrder
import MinaRust.SnarkedSync.Panics
import MinaRust.LedgerRead.Queries
import MinaRust.Yamux.Chunks
import MinaRust.Yamux.Order
import MinaRust.Yamux.Windows
import MinaRust.Yamux.StreamLimit
import MinaRust.TransitionFrontier.ChainProof
import MinaRust.TransitionFrontier.BlockFetch
import MinaRust.TransitionFrontier.CatchUp
import MinaRust.Kademlia.Insertions
import MinaRust.Pubsub.Mesh
import MinaRust.Pubsub.Cache
import MinaRust.Rpc.Stream
import MinaRust.SnarkPool.Candidates
import MinaRust.ZkappLogic.CallForest
import MinaRust.Pubsub.Publish
import MinaRust.TransactionLogic.Memo
import MinaRust.Account.FeeExcess
import MinaRust.PendingCoinbase.Fifo
