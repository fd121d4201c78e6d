import Goedb.Lib.Program
import Goedb.Lib.Trace
import Goedb.Lib.Ring
import Goedb.Lib.Bytes
import Goedb.Lib.Bits
import Goedb.Lib.Cycles
import Goedb.Lib.Decoder
import Goedb.Lib.Steps
import Goedb.Lib.Follows
import Goedb.Lib.Relax
import Goedb.Basic
import Goedb.DataStruct.Buckets
import Goedb.DataStruct.HTable
import Goedb.DataStruct.HSet
import Goedb.DataStruct.Dict
import Goedb.DataStruct.LinkedList
import Goedb.DataStruct.ListRuns
import Goedb.DataStruct.Queue
import Goedb.DataStruct.PrioQueue
import Goedb.DataStruct.FibonacciHeap
import Goedb.DataStruct.FibRings
import Goedb.DataStruct.FibForest
import Goedb.DataStruct.FibSweep
import Goedb.DataStruct.FibOps
import Goedb.DataStruct.FibRuns
import Goedb.DataStruct.FibContract
import Goedb.DataStruct.FibQueue
import Goedb.DataStruct.FibUniform
import Goedb.Io.DiskFile
import Goedb.Io.PhysicalDatabase
import Goedb.Io.Accounting
import Goedb.Cache.Pages
import Goedb.Cache.PageCache
import Goedb.Cache.Frames
import Goedb.Cache.Transparency
import Goedb.Cache.Eviction
import Goedb.Cache.OnePage
import Goedb.Access.HeaderPage
import Goedb.Access.HeaderBits
import Goedb.Access.BitArrays
import Goedb.Access.WriteBits
import Goedb.Access.ReadBits
import Goedb.Access.Records
import Goedb.Access.RecordOps
import Goedb.Access.HeapFile
import Goedb.Access.Store
import Goedb.Access.StoreRefinement
import Goedb.Access.Graph
import Goedb.Access.Linking
import Goedb.Access.StoreSpecs
import Goedb.Access.Objects
import Goedb.Access.CreateRelationship
import Goedb.Access.Creation
import Goedb.Access.Unlinking
import Goedb.Access.DeleteRelationship
import Goedb.Access.DeleteNode
import Goedb.Access.Renaming
import Goedb.Access.Expand
import Goedb.Access.InMemoryGraph
import Goedb.Access.Neighbours
import Goedb.Access.Agreement
import Goedb.Order.ReorderRecords
import Goedb.Order.SwapNodes
import Goedb.Order.SwapRelationships
import Goedb.Access.Scanning
import Goedb.Order.SlotAccounting
import Goedb.Order.LowestFree
import Goedb.Order.Reorder
import Goedb.Access.Footprint
import Goedb.Access.CachedHeapFile
import Goedb.Access.Durability
import Goedb.Access.RecordLaw
import Goedb.Access.SlotScans
import Goedb.Order.ReorderRuns
import Goedb.Order.Layout
import Goedb.Order.BySequence
import Goedb.Query.Uncompress
import Goedb.Query.SnapImporter
import Goedb.Query.Import
import Goedb.Query.FaithfulImport
import Goedb.Query.DepthFirst
import Goedb.Query.Dijkstra
import Goedb.Query.AStar
import Goedb.Query.AStarHeap
import Goedb.Query.Paths
import Goedb.Query.Alt
import Goedb.Order.SortIncidence
import Goedb.Order.SortedIncidence
import Goedb.Order.ByNodes
import Goedb.Order.LayoutTools
import Goedb.Order.RandomOrder
import Goedb.Lib.Multigraph
import Goedb.Access.FindRecords
import Goedb.Access.PropertyGraph
import Goedb.Access.GraphCalls
import Goedb.Access.GraphRuns
import Goedb.Access.Undoing
import Goedb.Lib.Stream
import Goedb.Io.ByteFile
import Goedb.Order.SwapPages
import Goedb.Lib.Rounding
import Goedb.Query.Degree
import Goedb.Query.Landmarks
import Goedb.Query.AltRuns
import Goedb.Lib.Lockstep
import Goedb.Query.Carried
import Goedb.Query.CarriedPaths
import Goedb.Order.LayoutRuns
import Goedb.Lib.Scan
import Goedb.Query.EdgeList
import Goedb.Query.Datasets
import Goedb.Lib.Shuffle
import Goedb.Order.RandomFrequency
import Goedb.Lib.Block
import Goedb.DataStruct.ArrayList
import Goedb.DataStruct.ArrayListRuns
