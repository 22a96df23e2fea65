import Cycology.Lib.Bytes
import Cycology.Lib.Chain
import Cycology.Lib.Dll
import Cycology.Lib.Journal
import Cycology.Lib.Loops
import Cycology.Lib.Records
import Cycology.Lib.Runs
import Cycology.DiskFormats
import Cycology.VNand
import Cycology.VNandHistory
import Cycology.FreeBlocks
import Cycology.AddressChecks
import Cycology.EraseCounts
import Cycology.Makefs
import Cycology.Helper
import Cycology.BlockHandout
import Cycology.LogPages
import Cycology.Recycle
import Cycology.Drain
import Cycology.WearLevel
import Cycology.NewFileSystem
import Cycology.Passthrough
import Cycology.Remount
import Cycology.HeaderRounds
import Cycology.LogAccounting
import Cycology.Reopen
import Cycology.OpenTable
import Cycology.CreateFailure
import Cycology.Release
import Cycology.Removal
import Cycology.CacheStructs
import Cycology.Cache
import Cycology.CacheTable
import Cycology.Filesystem
import Cycology.FileLru
import Cycology.DataLru
import Cycology.CacheKeys
import Cycology.CacheSearch
import Cycology.CacheRemove
import Cycology.PagedCache
import Cycology.PageOrder
import Cycology.PagedFs
import Cycology.WritePages
import Cycology.ReadPages
import Cycology.ReadLoop
import Cycology.Coherence
import Cycology.TreeWalk
import Cycology.GetPage
import Cycology.FullCache
import Cycology.Relisted
import Cycology.KeyBuffers
import Cycology.PageLists
import Cycology.MetadataFlush
import Cycology.ShowNand
import Cycology.FreePositions
import Cycology.FreeListReport
import Cycology.CachedRead
import Cycology.KeyCells
import Cycology.Lifetime
import Cycology.Crash
import Cycology.ShowUsed
import Cycology.Inspection
import Cycology.PlainFs
import Cycology.PageArray
import Cycology.PageRoom
import Cycology.ReadDir
import Cycology.DirReplies
import Cycology.DirReader
import Cycology.DataRecency
