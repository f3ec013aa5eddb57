import UCore.Machinery.Act
import UCore.Machinery.Links
import UCore.Machinery.Tally
import UCore.Machinery.Thread
import UCore.Machinery.Siblings
import UCore.Machinery.SkewTree
import UCore.Machinery.Blocks
import UCore.Machinery.Dyadic
import UCore.Libs.List
import UCore.Libs.Defs
import UCore.Libs.SkewHeap
import UCore.Libs.SkewHeapRun
import UCore.Libs.Printf
import UCore.Libs.PrintfText
import UCore.Libs.Snprintf
import UCore.Libs.PrintfNumber
import UCore.Mm.Page
import UCore.Mm.DefaultPmm
import UCore.Mm.DefaultPmmSpec
import UCore.Mm.DefaultPmmRun
import UCore.Mm.BestFitPmm
import UCore.Mm.BuddyPmm
import UCore.Mm.BuddyPmmSpec
import UCore.Mm.BuddyPmmLoops
import UCore.Mm.BuddyPmmRun
import UCore.Mm.BuddyPmmFit
import UCore.Machinery.Ranges
import UCore.Mm.Vma
import UCore.Mm.UserMem
import UCore.Machinery.Bytes
import UCore.Mm.CopyString
import UCore.Machinery.Radix
import UCore.Mm.PageTable
import UCore.Mm.PageTableSpec
import UCore.Mm.PageInsert
import UCore.Mm.AddrSpace
import UCore.Mm.CopyRange
import UCore.Mm.DupMmap
import UCore.Mm.UserView
import UCore.Mm.PageReplace
import UCore.Mm.UnmapRange
import UCore.Mm.ExitMmap
import UCore.Schedule.Sched
import UCore.Schedule.Timer
import UCore.Schedule.TimerRun
import UCore.Schedule.Stride
import UCore.Schedule.StrideRun
import UCore.Schedule.StrideSys
import UCore.Schedule.StrideLabs
import UCore.Schedule.StrideQueues
import UCore.Sync.Monitor
import UCore.Sync.CheckSync
import UCore.Sync.CheckSyncRun
import UCore.Sync.CheckSyncMonitor
import UCore.Sync.Sem
import UCore.Sync.SemRun
import UCore.Machinery.Circuit
import UCore.Mm.Kmalloc
import UCore.Mm.KmallocSpec
import UCore.Mm.KmallocRun
import UCore.Mm.KmallocEnds
import UCore.Mm.KmallocMerged
import UCore.Mm.KmallocUnits
import UCore.Sfs.Bitmap
import UCore.Sfs.Volume
import UCore.Sfs.Inode
import UCore.Sfs.VolumeSpec
import UCore.Sfs.Ownership
import UCore.Sfs.Entry
import UCore.Sfs.Grow
import UCore.Sfs.Shrink
import UCore.Sfs.Content
import UCore.Sfs.Transfer
import UCore.Sfs.Resize
import UCore.Sfs.SizeLimit
import UCore.Sfs.Fresh
import UCore.Sfs.OwnershipRun
import UCore.Sfs.ReadWrite
import UCore.Sfs.Shapes
import UCore.Sfs.Purse
import UCore.Sfs.SizeBlocks
import UCore.Sfs.Dir
import UCore.Sfs.Reading
import UCore.Sfs.WriteBack
import UCore.Sfs.Mount
import UCore.Tools.Mksfs
import UCore.Tools.MksfsMap
import UCore.Fs.Node
import UCore.Fs.File
import UCore.Fs.ReadOnly
import UCore.Fs.ReadRun
import UCore.Sfs.Flag
import UCore.Sfs.Housed
import UCore.Sfs.Undo
import UCore.Sfs.Stale
import UCore.Fs.Reload
import UCore.Fs.ReadOut
import UCore.Fs.Lookup
import UCore.Fs.LookupRun
import UCore.Fs.LookupPath
import UCore.Fs.PathBuffer
import UCore.Fs.VfsOpen
import UCore.Fs.Listing
import UCore.Fs.Namefile
import UCore.Fs.Append
import UCore.Fs.AppendRun
import UCore.Fs.Stdin
import UCore.Fs.Share
import UCore.Fs.ShareRun
import UCore.Fs.ShareStep
import UCore.Fs.ShareTable
import UCore.Mm.Slub
import UCore.Mm.SlubSpec
import UCore.Mm.SlubRun
import UCore.Mm.SlubLists
import UCore.Mm.SlubPmm
import UCore.Mm.SlubAddress
import UCore.Process.Segment
import UCore.Process.LoadIcode
import UCore.Process.SegmentRun
import UCore.Process.ArgStack
import UCore.Process.LoadRun
import UCore.Process.LoadSegments
import UCore.Process.HeaderTable
import UCore.Process.AnyFile
import UCore.Process.HandOver
import UCore.Process.Pid
import UCore.Process.Table
import UCore.Process.TableSpec
import UCore.Process.Adopt
import UCore.Process.Orderly
import UCore.Process.Fork
import UCore.Process.Exit
import UCore.Process.Wait
import UCore.Process.TableStep
import UCore.Process.TableRun
import UCore.Process.Registry
import UCore.Process.Lives
import UCore.Driver.Dtb
import UCore.Driver.DeviceTree
import UCore.Driver.MemoryReg
import UCore.Driver.MemoryNode
