import AndroidKernel.Alarm.Runs
import AndroidKernel.Alarm.Suspend
import AndroidKernel.Ashmem.Accounting
import AndroidKernel.Ashmem.Failures
import AndroidKernel.Binder.DeathRuns
import AndroidKernel.BinderAlloc.Runs
import AndroidKernel.Bitmaps.Allocator
import AndroidKernel.Bitmaps.HexText
import AndroidKernel.Bootmem.AllocRuns
import AndroidKernel.Bootmem.Handover
import AndroidKernel.Crc32.Correct
import AndroidKernel.Ebitmap.Parsed
import AndroidKernel.Filter.Loads
import AndroidKernel.Filter.Scratch
import AndroidKernel.GenPool.Runs
import AndroidKernel.Hrtimer.Forward
import AndroidKernel.Idr.RemoveAll
import AndroidKernel.IpFrag.Rejected
import AndroidKernel.Jffs2.Rtime
import AndroidKernel.Kfifo.Queue
import AndroidKernel.Lmb.Runs
import AndroidKernel.Locks.Deadlock
import AndroidKernel.Logger.Concurrent
import AndroidKernel.NandEcc.Detect
import AndroidKernel.Pid.AllocPid
import AndroidKernel.Plist.Runs
import AndroidKernel.Pmem.Allocation
import AndroidKernel.PrioHeap.Heap
import AndroidKernel.PrioTree.Search
import AndroidKernel.RadixTree.GangLookups
import AndroidKernel.RamConsole.Parity
import AndroidKernel.Rbtree.Runs
import AndroidKernel.ResCounter.Charges
import AndroidKernel.Resource.Allocate
import AndroidKernel.Resource.Split
import AndroidKernel.RtMutex.Deadlock
import AndroidKernel.Rwsem.Fair
import AndroidKernel.Slob.Runs
import AndroidKernel.Sort.Exact
import AndroidKernel.Swap.Complete
import AndroidKernel.SysvSem.Undo
import AndroidKernel.TextSearch.Bm
import AndroidKernel.TextSearch.Kmp
import AndroidKernel.TimerWheel.Exactness
import AndroidKernel.TimerWheel.NextTimer
import AndroidKernel.Vmap.Bookkeeping
import AndroidKernel.Wakelock.Lists
import AndroidKernel.Wakelock.Runs
import AndroidKernel.Yaffs.Tree
import AndroidKernel.YaffsEcc.PackedTags
import AndroidKernel.YaffsGc.Accounting
import AndroidKernel.YaffsGc.Selection
