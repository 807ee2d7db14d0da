import F3Tree.Lib.Probing
import F3Tree.Lib.LastWriter
import F3Tree.Lib.Runs
import F3Tree.HashMap
import F3Tree.Directory
import F3Tree.Ptfo
import F3Tree.Replay
import F3Tree.FutureBTree
import F3Tree.Buffered
import F3Tree.Resolution
import F3Tree.Drain
import F3Tree.Sequential
import F3Tree.Calls
import F3Tree.FullDirectory
import F3Tree.HashFilter
import F3Tree.Checkpoint
import F3Tree.Interleaving
import F3Tree.Reader
import F3Tree.Recovery
import F3Tree.Reopen
import F3Tree.Page
import F3Tree.Lib.Fuel
import F3Tree.BTree
import F3Tree.Lib.Keyed
import F3Tree.PageRecords
import F3Tree.Thin
import F3Tree.Rows
import F3Tree.Store
import F3Tree.Operations
import F3Tree.Members
import F3Tree.TreeRun
import F3Tree.WellFormed
import F3Tree.Guarded
import F3Tree.Restart
import F3Tree.AnyKey
import F3Tree.Placement
import F3Tree.Leftover
import F3Tree.RangeScan
import F3Tree.ScanExact
import F3Tree.Paged
import F3Tree.OwnKeys
import F3Tree.ScanRange
import F3Tree.ChainMemory
import F3Tree.ChainRuns
import F3Tree.ChainCrash
import F3Tree.Locks
import F3Tree.LocksAlone
import F3Tree.DeadlockFree
import F3Tree.HashCalls
import F3Tree.DeleteEnds
import F3Tree.Directions
import F3Tree.Visible
import F3Tree.Fast
import F3Tree.Conservation
import F3Tree.Between
import F3Tree.ChainOrder
import F3Tree.NodeCounts
import F3Tree.Lookups
import F3Tree.Rebuilt
import F3Tree.Concurrent
import F3Tree.Workers
import F3Tree.YcsbKeys
import F3Tree.BufferedHashIndex
import F3Tree.IndexMap
import F3Tree.IndexRefines
import F3Tree.IndexRuns
import F3Tree.PoolContext
import F3Tree.Rebalance
import F3Tree.Shares
import F3Tree.Tidy
import F3Tree.Separators
import F3Tree.Rebalanced
import F3Tree.ShortLeaf
import F3Tree.RebalanceExact
import F3Tree.Lib.Seqlock
import F3Tree.SearchLoads
import F3Tree.LockFree
import F3Tree.Unseen
import F3Tree.Searchers
import F3Tree.Wakeups
import F3Tree.Shutdown
import F3Tree.TreeStores
import F3Tree.Walk
import F3Tree.Midst
import F3Tree.Stopped
import F3Tree.Height
import F3Tree.Clients
