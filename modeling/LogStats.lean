import LogStats.Library.Bits
import LogStats.Library.Boundary
import LogStats.Library.ByteMemory
import LogStats.Library.CString
import LogStats.Library.Calendar
import LogStats.Library.ColoredTree
import LogStats.Library.Decimal
import LogStats.Library.DottedQuad
import LogStats.Library.Frame
import LogStats.Library.Linearization
import LogStats.Library.LinkedChain
import LogStats.Library.MinHeap
import LogStats.Library.Mutex
import LogStats.Library.PrefixMap
import LogStats.Library.Recency
import LogStats.Library.Run
import LogStats.Library.TopList
import LogStats.Library.TreeMemory
import LogStats.Library.TreeOrder
import LogStats.Library.Trim
import LogStats.Library.WordTree
import LogStats.Library.WordWalk
import LogStats.Library.Words
import LogStats.Library.Wrapping
import LogStats.Containers.Heap
import LogStats.Containers.HeapBounds
import LogStats.Containers.HeapSifts
import LogStats.Containers.HeapSort
import LogStats.Containers.LruList
import LogStats.Containers.LruSearch
import LogStats.Containers.LruSequence
import LogStats.Containers.MemPool
import LogStats.Containers.PoolGrowth
import LogStats.Containers.PoolMemory
import LogStats.Containers.PoolPartition
import LogStats.Containers.PoolRefinement
import LogStats.Containers.RadixFailure
import LogStats.Containers.RadixMap
import LogStats.Containers.RadixPrint
import LogStats.Containers.RadixRoot
import LogStats.Containers.RadixSubnet
import LogStats.Containers.RadixTree
import LogStats.Containers.RbDeletion
import LogStats.Containers.RbInsertion
import LogStats.Containers.RbMemory
import LogStats.Containers.RbPositions
import LogStats.Containers.RbSwap
import LogStats.Containers.RbTraversal
import LogStats.Containers.RbTree
import LogStats.NameTree.Atomic
import LogStats.NameTree.Basic
import LogStats.NameTree.Closest
import LogStats.NameTree.Comparator
import LogStats.NameTree.Counting
import LogStats.NameTree.Delete
import LogStats.NameTree.HeapIndex
import LogStats.NameTree.HeapRuns
import LogStats.NameTree.Insert
import LogStats.NameTree.Invariant
import LogStats.NameTree.NodeValue
import LogStats.NameTree.Recycling
import LogStats.NameTree.Reply
import LogStats.NameTree.TopN
import LogStats.Views.Bytes
import LogStats.Views.Drift
import LogStats.Views.Duplicates
import LogStats.Views.Increments
import LogStats.Views.Invariant
import LogStats.Views.Labels
import LogStats.Views.Ledger
import LogStats.Views.Limit
import LogStats.Views.Memsize
import LogStats.Views.Remainder
import LogStats.Views.Sizes
import LogStats.Views.Trimming
import LogStats.Views.ViewStats
import LogStats.Views.ViewTree
import LogStats.Keeper.Accounts
import LogStats.Keeper.Buffers
import LogStats.Keeper.Count
import LogStats.Keeper.Eviction
import LogStats.Keeper.Handled
import LogStats.Keeper.HouseKeeper
import LogStats.Keeper.LogHandle
import LogStats.Keeper.LogReader
import LogStats.Keeper.LogRotation
import LogStats.Keeper.MemoryLimit
import LogStats.Keeper.Parsing
import LogStats.Keeper.Plenty
import LogStats.Keeper.Rates
import LogStats.Keeper.Steps
import LogStats.Keeper.Wraparound
import LogStats.Server.Addr
import LogStats.Server.Atomicity
import LogStats.Server.Commands
import LogStats.Server.Framing
import LogStats.Server.Socket
import LogStats.Server.TopnSize
import LogStats.Client.Counts
import LogStats.Client.Linearizability
import LogStats.Client.Once
import LogStats.Client.Requests
import LogStats.Client.System
import LogStats.Webserver.Database
import LogStats.Webserver.History
import LogStats.Webserver.Sampling
import LogStats.Webserver.Snapshots
import LogStats.Webserver.StatsThread
import LogStats.Webserver.TopnMerge
import LogStats.Config.ConfigLine
import LogStats.Config.LogConfig
import LogStats.Config.RoundTrip
import LogStats.Config.Strip
