import Xv6.Log.Durable
import Xv6.Log.Waiting
import Xv6.Log.Room
import Xv6.Fs.Release
import Xv6.Fs.Paths
import Xv6.Vm.Dealloc
import Xv6.Process.Critical
import Xv6.Process.Smp
import Xv6.Process.Arguments
import Xv6.Process.Sbrk
import Xv6.Process.Strides
import Xv6.Process.Parents
import Xv6.Syscall.Table
import Xv6.Process.Ownership
import Xv6.Process.Join
import Xv6.Console
import Xv6.Pipes.Wakeups
import Xv6.Fs.Shared
import Xv6.Descriptors.Counts
import Xv6.Process.Failures
import Xv6.Process.Boost
import Xv6.Process.Quantum
import Xv6.Process.Groups
import Xv6.Process.Portions
import Xv6.Process.Idle
import Xv6.Fs.Agreement
import Xv6.Fs.Balance
import Xv6.User.Regexp
