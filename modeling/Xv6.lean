import Xv6.Cache.Coherence
import Xv6.Ide.Queue
import Xv6.Log.Crash
import Xv6.Log.Group
import Xv6.Malloc.Allocator
import Xv6.Sh.Roundtrip
import Xv6.Proc.Kill
import Xv6.Proc.Reaping
import Xv6.Proc.Times
import Xv6.Proc.Identity
import Xv6.Sleep.LostWakeup
import Xv6.Sleep.Killed
import Xv6.Sleep.SleepLock
import Xv6.Pipe.Wakeups
import Xv6.Locks.Deadlock
import Xv6.Locks.Interrupts
import Xv6.Proc.StrictPriority
import Xv6.Proc.RoundRobin
import Xv6.Proc.LowestQueue
import Xv6.Proc.LiveSlots
import Xv6.Vm.Reap
import Xv6.Mem.Commit
import Xv6.Mem.Fork
import Xv6.Proc.PriorityCommand
import Xv6.Fs.Shared
import Xv6.Mkfs.Boot
import Xv6.Ulib.Memmove
import Xv6.Grep.Grep
import Xv6.Mp.Mp
