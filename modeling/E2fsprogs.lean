import E2fsprogs.Lib.Bytes
import E2fsprogs.Lib.Memcpy
import E2fsprogs.Lib.Crc32
import E2fsprogs.Lib.Except
import E2fsprogs.Lib.Loop
import E2fsprogs.Lib.Ring
import E2fsprogs.Lib.SortedList
import E2fsprogs.Journal.Format
import E2fsprogs.Journal.Load
import E2fsprogs.Journal.Recovery
import E2fsprogs.Journal.RevokeTable
import E2fsprogs.Journal.Round
import E2fsprogs.Journal.ScanVerdict
import E2fsprogs.Journal.Layout
import E2fsprogs.Journal.Walk
import E2fsprogs.Journal.Scan
import E2fsprogs.Journal.RevokePass
import E2fsprogs.Journal.Replay
import E2fsprogs.Journal.Write
import E2fsprogs.Journal.Descriptor
import E2fsprogs.Journal.Encode
import E2fsprogs.Journal.Transaction
import E2fsprogs.Journal.RoundTrip
import E2fsprogs.Journal.Head
import E2fsprogs.Journal.ScanEnds
import E2fsprogs.Journal.FastCommit
import E2fsprogs.Journal.FcScan
import E2fsprogs.Journal.FcReplay
import E2fsprogs.Journal.FcApply
import E2fsprogs.Journal.FcBounds
import E2fsprogs.Journal.Reads
import E2fsprogs.Icount.Operations
import E2fsprogs.Icount.Map
import E2fsprogs.Icount.Runs
import E2fsprogs.Dir.Block
import E2fsprogs.Dir.Link
import E2fsprogs.Dir.Chain
import E2fsprogs.Dir.LinkOnce
import E2fsprogs.Dir.UnlinkOnce
import E2fsprogs.Dir.Iterate
import E2fsprogs.Xattr.Format
import E2fsprogs.Xattr.Read
import E2fsprogs.Xattr.ReadBounds
import E2fsprogs.Punch.Ind
import E2fsprogs.Punch.IndWindow
import E2fsprogs.UnixIo.Channel
import E2fsprogs.UnixIo.Raw
import E2fsprogs.UnixIo.Coherent
import E2fsprogs.UnixIo.Operations
import E2fsprogs.UnixIo.Calls
import E2fsprogs.UnixIo.Runs
import E2fsprogs.UnixIo.Reported
import E2fsprogs.UnixIo.Bypass
import E2fsprogs.Undo.Format
import E2fsprogs.Undo.Channel
import E2fsprogs.Undo.Replay
import E2fsprogs.Undo.Layout
import E2fsprogs.Undo.Restore
import E2fsprogs.Undo.Runs
import E2fsprogs.Rehash.Directory
import E2fsprogs.Rehash.Leaves
import E2fsprogs.Rehash.Nodes
import E2fsprogs.Rehash.Tree
import E2fsprogs.Rehash.ThreeLevels
import E2fsprogs.Rehash.Index
import E2fsprogs.Rehash.Rehashed
import E2fsprogs.Pass3.Connect
import E2fsprogs.Alloc.Tables
import E2fsprogs.Pass5.BlockBitmaps
import E2fsprogs.Pass5.Counts
import E2fsprogs.Inode.Cache
import E2fsprogs.Inode.Table
import E2fsprogs.Inode.Runs
import E2fsprogs.Resize.Backups
import E2fsprogs.Resize.BackupCalls
import E2fsprogs.Resize.ExtentTable
import E2fsprogs.Resize.ResizeInode
import E2fsprogs.Resize.Agree
import E2fsprogs.Extent.Get
import E2fsprogs.Extent.Tree
import E2fsprogs.Extent.Forward
import E2fsprogs.Extent.Backward
import E2fsprogs.Extent.InOrder
import E2fsprogs.Lib.SearchTree
import E2fsprogs.Lib.BitArray
import E2fsprogs.Bitmap.RbTree
import E2fsprogs.Bitmap.RbNodes
import E2fsprogs.Bitmap.RbMark
import E2fsprogs.Bitmap.RbUnmark
import E2fsprogs.Bitmap.RbTest
import E2fsprogs.Bitmap.BitArray
import E2fsprogs.Bitmap.Agree
import E2fsprogs.Bitmap.Resize
import E2fsprogs.Bitmap.Single
import E2fsprogs.Alloc.NewInode
import E2fsprogs.Alloc.StatsRange
import E2fsprogs.Alloc.NewRange
import E2fsprogs.Alloc.FreeBlocks
import E2fsprogs.Super.Flushed
import E2fsprogs.Bitmap.Reports
import E2fsprogs.Bitmap.Find
import E2fsprogs.Bitmap.Range
import E2fsprogs.Bitmap.Clusters
import E2fsprogs.Bitmap.Count
import E2fsprogs.Extent.GotoExact
import E2fsprogs.Extent.CountExact
import E2fsprogs.Alloc.NewBlock
import E2fsprogs.Journal.RevokeHash
import E2fsprogs.Journal.TagReads
import E2fsprogs.Icount.Fullmap
import E2fsprogs.Bitmap.Compare
import E2fsprogs.Bitmap.Marked
import E2fsprogs.Journal.FcExtentUpdate
import E2fsprogs.Xattr.Order
import E2fsprogs.Xattr.RefRuns
import E2fsprogs.Xattr.Refcount
import E2fsprogs.Journal.FcRepeat
import E2fsprogs.Region.Allocate
import E2fsprogs.EaRefcount.Runs
import E2fsprogs.Xattr.PosixAcl
import E2fsprogs.Lib.NullChain
import E2fsprogs.Quota.DeleteTree
import E2fsprogs.Quota.Lookup
import E2fsprogs.Quota.Runs
import E2fsprogs.DirInfo.Runs
import E2fsprogs.EncryptedFiles.Runs
import E2fsprogs.RwBitmaps.ReadBack
import E2fsprogs.Inode.ScanRuns
import E2fsprogs.Inode.ScanVerdicts
import E2fsprogs.Inode.ScanGarbage
import E2fsprogs.Dir.BlockList
import E2fsprogs.Inode.BlockCount
import E2fsprogs.BadBlocks.U32List
import E2fsprogs.Resize.InodeTables
import E2fsprogs.Resize.NewSize
import E2fsprogs.Pass5.InodeBitmaps
import E2fsprogs.Pass5.InodeCounts
import E2fsprogs.Journal.CrashRecovery
import E2fsprogs.Pass1b.Naming
import E2fsprogs.Pass1b.Sharing
import E2fsprogs.Mmp.Protocol
