import Pgvec.Machine.Prog
import Pgvec.Machine.Logic
import Pgvec.Lib.PairingHeap
import Pgvec.Storage.Page
import Pgvec.Hnsw.Tuple
import Pgvec.Hnsw.Index
import Pgvec.Hnsw.Lookup
import Pgvec.Hnsw.Chain
import Pgvec.Hnsw.Search
import Pgvec.Hnsw.Neighbors
import Pgvec.Hnsw.Insert
import Pgvec.Hnsw.Vacuum
import Pgvec.Hnsw.Scan
import Pgvec.Hnsw.Memory
import Pgvec.Hnsw.Flush
import Pgvec.Hnsw.Graph
import Pgvec.Hnsw.SearchFacts
import Pgvec.Hnsw.ScanFacts
import Pgvec.Hnsw.ScanComplete
import Pgvec.Hnsw.ScanModes
import Pgvec.Hnsw.MemoryFacts
import Pgvec.Hnsw.FlushFacts
import Pgvec.Hnsw.SearchAgree
import Pgvec.Storage.GenericXlog
import Pgvec.Machine.LWLock
import Pgvec.Vector.Text
import Pgvec.Vector.Grammar
import Pgvec.Vector.Binary
import Pgvec.Hnsw.Nodes
import Pgvec.Hnsw.Placement
import Pgvec.Hnsw.SearchLogic
import Pgvec.Hnsw.Segments
import Pgvec.Hnsw.FreeSlots
import Pgvec.Hnsw.PlacedOnDisk
import Pgvec.Hnsw.Duplicates
import Pgvec.Hnsw.Shared
import Pgvec.Hnsw.InsertSteps
import Pgvec.Hnsw.VacuumSteps
import Pgvec.Hnsw.Interleaved
import Pgvec.Hnsw.ScanSteps
import Pgvec.Hnsw.BuildMemory
import Pgvec.Hnsw.MemoryBuild
import Pgvec.Hnsw.FlushProtocol
import Pgvec.Hnsw.EntryProtocol
import Pgvec.Lib.MaxTree
import Pgvec.Storage.FsmPage
import Pgvec.Storage.BulkDelete
import Pgvec.Storage.FreeSpace
import Pgvec.Storage.FreeSpaceMap
import Pgvec.Storage.FsmSearch
import Pgvec.Storage.FsmAddress
import Pgvec.Storage.FsmCyclic
import Pgvec.Common.Pglz
import Pgvec.Common.PglzFacts
import Pgvec.Common.PglzRoundTrip
import Pgvec.Common.PglzSlice
import Pgvec.Common.PglzAccess
import Pgvec.Gin.PostingList
import Pgvec.Gin.Shrink
import Pgvec.Hnsw.LayerSpec
import Pgvec.Hnsw.SelectFacts
import Pgvec.Nbtree.Dedup
import Pgvec.Nbtree.DedupFacts
import Pgvec.Nbtree.PostingBytes
import Pgvec.Nodes.TidBitmap
import Pgvec.Nodes.TidBitmapExact
import Pgvec.Common.TidStore
import Pgvec.Common.Pairingheap
import Pgvec.Lmgr.DeadlockCheck
import Pgvec.Lmgr.TopoSortGroups
import Pgvec.Common.SimplehashMap
import Pgvec.Common.IntegerSetRun
import Pgvec.Storage.XlogCalls
import Pgvec.Storage.XlogPosition
import Pgvec.Nodes.BitmapsetQueries
import Pgvec.Adt.MultirangeStorageFacts
import Pgvec.Adt.MultirangeAlgebra
import Pgvec.Adt.RangeAlgebra
import Pgvec.Adt.MultirangeTestsFacts
import Pgvec.Adt.MultirangeCanonical
