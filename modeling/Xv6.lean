import Xv6.Log.Crash
import Xv6.Log.Isolation
import Xv6.Pipe.Wakeup
import Xv6.Sched.MlfqAccount
import Xv6.Sched.MlfqPriority
import Xv6.Sched.MlfqOrder
import Xv6.Sched.MlfqLocks
import Xv6.Proc.Kill
import Xv6.Proc.SysCount
import Xv6.Sched.Lottery
import Xv6.Pipe.Deliver
import Xv6.Console.Discipline
import Xv6.Tree.Wakeup
import Xv6.Tree.Counts
import Xv6.Tree.Times
import Xv6.Alarm.Ownership
import Xv6.Alarm.Schedule
import Xv6.Fs.Path
import Xv6.Fs.Shared
import Xv6.Vm.Sbrk
import Xv6.Vm.BuiltTable
import Xv6.Vm.NewImage
import Xv6.Disk.VirtioProtocol
import Xv6.Cache.Coherence
import Xv6.Fs.Reserve
import Xv6.Mkfs.ReadBack
import Xv6.Vm.WriteProtect
import Xv6.User.Memmove
import Xv6.User.Grep
