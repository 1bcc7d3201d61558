import Pintos.Clib.Division
import Pintos.Clib.Strtok
import Pintos.Devices.Partition
import Pintos.Devices.Punctual
import Pintos.Filesys.Addressing
import Pintos.Filesys.Archive
import Pintos.Filesys.Atomicity
import Pintos.Filesys.FreeMap
import Pintos.Filesys.OpenRaces
import Pintos.Filesys.PathLaws
import Pintos.Filesys.Resolvers
import Pintos.Filesys.RootDirectory
import Pintos.Shell.Dereferences
import Pintos.Shell.Foreground
import Pintos.Shell.Mirror
import Pintos.Threads.Allocation
import Pintos.Threads.DonationChain
import Pintos.Threads.Feedback
import Pintos.Threads.Fifo
import Pintos.Threads.Interrupts
import Pintos.Threads.Lifecycle
import Pintos.Threads.Release
import Pintos.Threads.Scheduler
import Pintos.Threads.Signals
import Pintos.Threads.Waiters
import Pintos.Userprog.Exec
import Pintos.Userprog.Isolation
import Pintos.Userprog.Pagedir
import Pintos.Userprog.Wait
import Pintos.Vm.Clock
import Pintos.Vm.Eviction
import Pintos.Vm.FailedLoads
import Pintos.Vm.Faults
