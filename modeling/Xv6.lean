import Xv6.Sched.Dispatch
import Xv6.Sched.Clock
import Xv6.Sched.Wait
import Xv6.Sched.Deadlock
import Xv6.Log.Atomicity
import Xv6.Log.Reservation
import Xv6.Files.Balance
import Xv6.Sleep.Exclusion
import Xv6.Console.Editor
import Xv6.Mkfs.Mount
import Xv6.Virtio.Protocol
import Xv6.Shell.Parse
import Xv6.Umalloc.Runs
import Xv6.Sched.Burst
import Xv6.Pipes.Faults
import Xv6.Proc.Wait
import Xv6.Proc.TraceMask
import Xv6.Fs.ShortWrite
import Xv6.Files.Integrity
import Xv6.Sched.Overtake
import Xv6.Mkfs.Limits
import Xv6.Proc.SleepCall
import Xv6.Files.Read
import Xv6.Vm.Copy
import Xv6.Vm.Sbrk
import Xv6.Fs.Directory
import Xv6.Grep.Buffer
import Xv6.Ulib.Memmove
import Xv6.Shell.Search
