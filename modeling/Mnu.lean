import Mnu.Boot.Mmio
import Mnu.Task.QueueRuns
import Mnu.Task.StackSteps
import Mnu.Task.ExitProgress
import Mnu.Mem.RootLifetimeInv
import Mnu.Task.LockSteps
import Mnu.Ipc.MailboxRuns
import Mnu.Ipc.Order
import Mnu.Task.HandleStorage
import Mnu.Ipc.ReceiveInv
import Mnu.Mem.SharedMemory
import Mnu.Mem.FrameInv
import Mnu.Mem.ExtentTransactionInv
import Mnu.Mem.Destroy
import Mnu.Mem.MappingRevocation
import Mnu.Mem.WritebackInv
import Mnu.Mem.TlbRendezvous
import Mnu.Syscall.AddressWaitMemory
import Mnu.Mem.ObjectIoFair
import Mnu.Abi.SharedRingFifo
import Mnu.Abi.Provider
import Mnu.PlugKit.VirtqueueInv
import Mnu.Syscall.Capability
import Mnu.Syscall.SleepUntil
import Mnu.Syscall.PipeInv
import Mnu.Syscall.LaunchContext
import Mnu.Task.Upcall
import Mnu.Mem.PageRanges
import Mnu.Task.HandleSnapshot
import Mnu.Util.DiagnosticBuffer
