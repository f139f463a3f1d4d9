import Uniks.Lib.Runs
import Uniks.Lib.RefCount
import Uniks.Queue
import Uniks.Inode
import Uniks.InodeRefs
import Uniks.Sysfile
import Uniks.SysfileCases
import Uniks.FileTable
import Uniks.OpenFiles
import Uniks.InodeCount
import Uniks.Lib.Dyadic
import Uniks.Phys
import Uniks.PhysInv
import Uniks.Lib.ChildLists
import Uniks.Proc
import Uniks.ProcTree
import Uniks.Blkbuf
import Uniks.BlkbufInv
import Uniks.Lib.Hoare
import Uniks.VerifyArea
import Uniks.Mm
import Uniks.WaitLock
import Uniks.LockOrder
import Uniks.BlkDevBytes
import Uniks.LoadPage
import Uniks.DirLinkFormat
import Uniks.Reaping
import Uniks.Wakeup
import Uniks.Execve
import Uniks.Dispatch
import Uniks.Layout
import Uniks.Syncing
import Uniks.Coalescing
import Uniks.SlubInv
import Uniks.Pipe
import Uniks.BlkLocks
import Uniks.SleepQueue
import Uniks.InodeRuns
import Uniks.ArgBlock
import Uniks.PathCalls
import Uniks.PathWalk
import Uniks.FailedPaths
import Uniks.PageLedger
import Uniks.PageTables
import Uniks.PageSharing
import Uniks.PageCount
import Uniks.Mutex
import Uniks.PipeWakeup
import Uniks.Bunmap
import Uniks.PageLoss
import Uniks.DiskTracking
import Uniks.Snapshot
import Uniks.Tty
import Uniks.ElfLoad
import Uniks.PathResolve
import Uniks.PagesAlloc
import Uniks.BuddyBounds
import Uniks.RwOperating
import Uniks.DirLookup
import Uniks.DirGrow
import Uniks.StringFetch
import Uniks.FileWrite
import Uniks.DiskFull
import Uniks.BlockCount
import Uniks.FileLayout
import Uniks.Growth
import Uniks.GrowthBlocks
import Uniks.DiskInodes
import Uniks.Dup2
import Uniks.TtyWakeup
import Uniks.Kill
import Uniks.Exhaustion
import Uniks.VerifyOom
import Uniks.ForkOom
import Uniks.Getdents
import Uniks.WorkingDir
import Uniks.Creation
import Uniks.CreateSteps
import Uniks.CreateLinks
import Uniks.CreateAtomic
import Uniks.HeapRuns
import Uniks.HeapRemoval
import Uniks.HeapBounds
import Uniks.DirScan
import Uniks.PageWalk
import Uniks.MapPages
import Uniks.UserCopy
import Uniks.ElfFaithful
import Uniks.Lib.Transfer
import Uniks.Shell
import Uniks.ShellGrammar
import Uniks.ShellSound
import Uniks.ShellComplete
import Uniks.ShellExact
import Uniks.PathSplit
import Uniks.NumberFormat
import Uniks.GetLine
import Uniks.Lib.Lockstep
import Uniks.ShellMem
import Uniks.ShellWords
import Uniks.Lib.Rings
import Uniks.Lib.Tiles
import Uniks.Umalloc
import Uniks.UmallocFree
import Uniks.UmallocTake
import Uniks.UmallocRuns
import Uniks.Sched
import Uniks.SchedCtx
import Uniks.SchedInv
import Uniks.SchedSteps
import Uniks.SchedCalls
import Uniks.SchedRuns
import Uniks.Lib.TwoWay
import Uniks.Lists
import Uniks.ShellRun
import Uniks.ShellWiring
import Uniks.ShellRuns
