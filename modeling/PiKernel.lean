import PiKernel.Lib.Transition
import PiKernel.Lib.Program
import PiKernel.Lib.Interleaving
import PiKernel.Lib.Sections
import PiKernel.Lib.Guarded
import PiKernel.Lib.Parts
import PiKernel.Lib.Tiling
import PiKernel.Lib.Coalesce
import PiKernel.Lib.Linked
import PiKernel.Lib.BestFit
import PiKernel.Lib.PageWalk
import PiKernel.Lib.Rendezvous
import PiKernel.Lib.Arm64
import PiKernel.Lib.Privilege
import PiKernel.Lib.Translate
import PiKernel.Heap.Source
import PiKernel.Heap.Effects
import PiKernel.Heap.FreeList
import PiKernel.Heap.WellFormed
import PiKernel.Heap.Malloc
import PiKernel.Heap.Spell
import PiKernel.Heap.Fit
import PiKernel.Heap.Free
import PiKernel.Heap.Init
import PiKernel.Heap.Runs
import PiKernel.Heap.Allocator
import PiKernel.Heap.Coalescing
import PiKernel.Heap.Orders
import PiKernel.Heap.Objects
import PiKernel.Heap.Cores
import PiKernel.Sync.SpinLock
import PiKernel.Sync.Exclusion
import PiKernel.Console.Format
import PiKernel.Console.Source
import PiKernel.Console.Critical
import PiKernel.Console.Panic
import PiKernel.Console.Messages
import PiKernel.Console.Writers
import PiKernel.Console.Numbers
import PiKernel.Console.Directives
import PiKernel.Console.Report
import PiKernel.Uart.Line
import PiKernel.Uart.Hex
import PiKernel.Libk.Strings
import PiKernel.Mmu.Source
import PiKernel.Mmu.Map
import PiKernel.Mmu.Enable
import PiKernel.Mailbox.Source
import PiKernel.Mailbox.Invariant
import PiKernel.Mailbox.Transit
import PiKernel.Mailbox.Matching
import PiKernel.Mailbox.Serial
import PiKernel.Mailbox.Completion
import PiKernel.Boot.Memzero
import PiKernel.Boot.Source
import PiKernel.Boot.Objects
import PiKernel.Boot.Stages
import PiKernel.Boot.Sequence
import PiKernel.Boot.Startup
import PiKernel.Boot.Woken
import PiKernel.Boot.Order
import PiKernel.Boot.Assembly
import PiKernel.Boot.Entry
import PiKernel.Boot.SpinTable
import PiKernel.Boot.Vectors
import PiKernel.Whole.Source
import PiKernel.Whole.Parts
import PiKernel.Whole.Output
import PiKernel.Whole.Finish
