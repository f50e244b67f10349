import Glatt.Core.BTreeRefinement
import Glatt.Core.PageReuse
import Glatt.Vm.IndexPool
import Glatt.Vm.Tlb
import Glatt.Vm.Asid
import Glatt.Fs.LifeCycle
import Glatt.Vm.PageRanges
import Glatt.Core.Mutex
import Glatt.Core.HokusaiReuse
import Glatt.Core.HokusaiRendezvous
import Glatt.Core.ExecBounds
import Glatt.Core.SyscallWiring
import Glatt.Vm.IndexOrder
import Glatt.Mu.Shell
import Glatt.Mu.Process
import Glatt.Fs.PageReads
import Glatt.Network.Delivery
import Glatt.Ipc.Reserved
import Glatt.Core.UserAlloc
import Glatt.Core.UserWire
import Glatt.Core.MessageCustody
import Glatt.Storage.UfsMount
import Glatt.Core.ExecRead
import Glatt.Core.ExecTask
import Glatt.Storage.TarHeader
import Glatt.Core.Spinlock
import Glatt.Core.Shlock
import Glatt.Core.SchedulerPanic
import Glatt.Core.SchedulerWait
import Glatt.Core.Isolation
import Glatt.Mu.Dispatch
import Glatt.Vm.OfwMemory
import Glatt.Core.Startup
import Glatt.Db.Command
import Glatt.Core.Printf
import Glatt.Core.Memcpy
