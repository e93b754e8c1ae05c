import OrangeOs.Elf.Arguments
import OrangeOs.Elf.Bounds
import OrangeOs.File.Projection
import OrangeOs.File.Runs
import OrangeOs.Fs.CachedIndex
import OrangeOs.Ipc.Delivery
import OrangeOs.Ipc.SenderRuns
import OrangeOs.Memory.HeapRuns
import OrangeOs.Memory.Remap
import OrangeOs.Proc.FutexWords
import OrangeOs.Sched.RingRuns
import OrangeOs.Sched.Sleep
import OrangeOs.Shell.Launch
import OrangeOs.Storage.Appends
import OrangeOs.Storage.Rejected
import OrangeOs.Storage.Resolution
import OrangeOs.Storage.Tree
import OrangeOs.Sync.Mutex
import OrangeOs.Tty.Ansi
import OrangeOs.Tty.InputLock
import OrangeOs.Tty.InputQueue
import OrangeOs.User.Cond
