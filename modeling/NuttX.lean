import NuttX.Clock
import NuttX.Wdog.Deadlines
import NuttX.Sched.Merge
import NuttX.Task.Pid
import NuttX.Kernel.Preempt
import NuttX.Sem.Conservation
import NuttX.Task.Delete
import NuttX.Mq.Order
import NuttX.Mq.Wakeups
import NuttX.Inherit.Floor
import NuttX.Inherit.Leak
import NuttX.Pthread.Barrier
import NuttX.Pthread.Mutex
import NuttX.Pthread.Cond
import NuttX.Pthread.Join
import NuttX.Signal.Pending
import NuttX.Signal.Deliver
import NuttX.Fat.Open
import NuttX.Fat.Boot
import NuttX.Fat.Accessors
import NuttX.Fat.Fsinfo
import NuttX.Fat.Buffer
import NuttX.Fat.Position
import NuttX.Fat.Locks
import NuttX.Fat.Allocate
import NuttX.Tcp.Ack
import NuttX.Tcp.Backlog
import NuttX.Tcp.Recv
import NuttX.Tcp.Send
import NuttX.Tcp.Payload
import NuttX.Mm.Sizes
import NuttX.Mm.Tasks
import NuttX.Nx.Windows
import NuttX.Nxffs.Writer
import NuttX.Mtd.Ftl
import NuttX.Env
import NuttX.Work
import NuttX.Drivers.Can
import NuttX.Drivers.Slip
