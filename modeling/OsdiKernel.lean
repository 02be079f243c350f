import OsdiKernel.Mm.BuddySystem
import OsdiKernel.Mm.Kmalloc
import OsdiKernel.Mm.MmSystem
import OsdiKernel.Mm.Disjoint
import OsdiKernel.Sched.Sched
import OsdiKernel.Sched.Pick
import OsdiKernel.Sched.Fairness
import OsdiKernel.Mm.FreeFrames
import OsdiKernel.Sched.Fork
import OsdiKernel.Sched.TaskInv
import OsdiKernel.Sched.Create
import OsdiKernel.Sched.Stores
import OsdiKernel.Sched.TaskSystem
import OsdiKernel.Sched.FailedCreate
import OsdiKernel.Lib.Ledger
import OsdiKernel.Sched.Leak
import OsdiKernel.Sched.NoLeak
import OsdiKernel.Boot.LoadKernel
import OsdiKernel.Uart.ShellIo
import OsdiKernel.Uart.Fifo
import OsdiKernel.Timer.Timers
import OsdiKernel.Mm.NothingFreed
import OsdiKernel.Timer.TimerList
import OsdiKernel.Timer.TimersInv
import OsdiKernel.Timer.DeadlineOrder
import OsdiKernel.Timer.Registration
import OsdiKernel.Cpio.Cpio
import OsdiKernel.Cpio.Lookup
import OsdiKernel.Mm.Reinit
import OsdiKernel.Wait.QueueInv
import OsdiKernel.Wait.NoDangling
import OsdiKernel.Wait.WakeUp
import OsdiKernel.Uart.BlockRead
import OsdiKernel.Uart.LostWakeUp
import OsdiKernel.Exec.Exec
import OsdiKernel.Exec.OwnWrites
import OsdiKernel.Sched.Machine
import OsdiKernel.Sched.Preempt
import OsdiKernel.Mm.BestFit
import OsdiKernel.Sched.Selection
import OsdiKernel.Timer.Insertion
import OsdiKernel.Mm.Placement
import OsdiKernel.Lib.Words
import OsdiKernel.Exec.Argv
import OsdiKernel.Exec.Strings
import OsdiKernel.Shell.CommandLine
import OsdiKernel.Shell.Stale
import OsdiKernel.Sched.TaskMemory
import OsdiKernel.Sched.ForkMemory
import OsdiKernel.Lib.Threads
import OsdiKernel.Mm.Preempted
import OsdiKernel.Mm.PreemptedInv
import OsdiKernel.Mm.PreemptedMoves
import OsdiKernel.Mm.PreemptedRun
import OsdiKernel.Mm.Uninterrupted
import OsdiKernel.Sched.CopyLoops
import OsdiKernel.Text.Itoa
import OsdiKernel.Shell.Grammar
import OsdiKernel.Shell.Editing
import OsdiKernel.Cpio.Progress
import OsdiKernel.Cpio.Malformed
import OsdiKernel.Timer.SetTimeout
import OsdiKernel.Trap.Entry
import OsdiKernel.Trap.Kthread
import OsdiKernel.Trap.Housed
import OsdiKernel.Trap.Whole
import OsdiKernel.Trap.Follows
import OsdiKernel.Sched.Share
import OsdiKernel.Text.SysWrite
import OsdiKernel.Boot.Start
import OsdiKernel.Trap.Stubs
import OsdiKernel.Sched.KernelSystem
import OsdiKernel.Sched.ScheduleMemory
