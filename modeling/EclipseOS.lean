import EclipseOS.OpenFiles
import EclipseOS.Reaping
import EclipseOS.Scheduler
import EclipseOS.Copying
import EclipseOS.PmmInit
import EclipseOS.Archive
import EclipseOS.Rounds
import EclipseOS.KernelHalf
import EclipseOS.LoaderSafety
import EclipseOS.Described
import EclipseOS.StaleMemory
import EclipseOS.FirstFit
import EclipseOS.HeapBlocks
import EclipseOS.ArchiveWalk
import EclipseOS.RelocationLoop
import EclipseOS.PageMap
import EclipseOS.SharedReads
import EclipseOS.Libc.StandardOutput
import EclipseOS.Libc.HeapIntegrity
import EclipseOS.Libc.Alignment
import EclipseOS.Libc.Delivery
import EclipseOS.Sbrk
import EclipseOS.ReadBack
import EclipseOS.ArchiveReads
import EclipseOS.FreeSet
import EclipseOS.SystemResults
import EclipseOS.Libc.Memmove
import EclipseOS.Modifiers
import EclipseOS.KdbEcho
import EclipseOS.Tasks
import EclipseOS.Libc.Streams
import EclipseOS.Waiting
import EclipseOS.Contexts
import EclipseOS.AddressSpaces
import EclipseOS.TrapStack
import EclipseOS.UserPointers
import EclipseOS.Isolation
import EclipseOS.Traps
import EclipseOS.ChildEntry
import EclipseOS.Switching
import EclipseOS.UserCalls
import EclipseOS.DescriptorTables
import EclipseOS.Dispatch
