import Mittos64.Lib.DList
import Mittos64.Lib.Run
import Mittos64.Lib.Memory
import Mittos64.Lib.Ring
import Mittos64.Lib.Trie
import Mittos64.List
import Mittos64.Mem.Layout
import Mittos64.Mem.Heap
import Mittos64.Mem.HeapList
import Mittos64.Mem.HeapSpec
import Mittos64.Mem.HeapRun
import Mittos64.Mem.Pmm
import Mittos64.Mem.Vmm
import Mittos64.Mem.VmmSpec
import Mittos64.Mem.VmmLookup
import Mittos64.Mem.VmmFree
import Mittos64.Mem.Mmu
import Mittos64.Mem.Kernel
import Mittos64.Mem.KernelRun
import Mittos64.Mem.BootWalk
import Mittos64.Proc.Process
import Mittos64.Proc.Scheduler
import Mittos64.Fs.Pipe
import Mittos64.Fs.Ata
import Mittos64.Fs.Vfs
import Mittos64.Fs.Counters
import Mittos64.Fs.Descriptors
import Mittos64.Syscall
import Mittos64.Proc.Procmm
import Mittos64.Proc.AreaList
import Mittos64.Proc.Pages
import Mittos64.Proc.Copy
import Mittos64.Proc.Space
import Mittos64.Proc.Setup
import Mittos64.Proc.Start
import Mittos64.Proc.Fork
import Mittos64.Proc.Child
import Mittos64.Proc.Elf
import Mittos64.Lib.Amd64
import Mittos64.Mem.PmmInit
import Mittos64.Mem.BootFree
import Mittos64.Mem.Ownership
import Mittos64.Proc.Frames
import Mittos64.Proc.Load
import Mittos64.Proc.Args
import Mittos64.Proc.Exec
import Mittos64.Proc.Cover
import Mittos64.Proc.Break
import Mittos64.Proc.Switch
import Mittos64.Proc.Entry
import Mittos64.Proc.SyscallFork
import Mittos64.Fs.Position
import Mittos64.Cpu.Startup
import Mittos64.Boot.Multiboot
import Mittos64.Boot.Protocols
import Mittos64.Boot.PageUsed
import Mittos64.Mem.Follow
import Mittos64.Mem.Exhaustion
import Mittos64.Mem.HeapReturns
import Mittos64.Mem.HeapUndo
import Mittos64.Mem.Realloc
import Mittos64.Mem.FreeReads
import Mittos64.Proc.HeapPages
import Mittos64.Lib.Blocks
import Mittos64.Proc.Transfer
import Mittos64.Proc.StackFault
import Mittos64.Proc.BreakBounds
import Mittos64.Proc.Teardown
import Mittos64.Proc.Reject
import Mittos64.Lib.CString
import Mittos64.Mem.Strings
import Mittos64.Fs.Path
import Mittos64.Fs.Mounts
import Mittos64.Fs.Lookup
import Mittos64.Fs.PipeCall
import Mittos64.Fs.AtaFaults
import Mittos64.Fs.AtaDamage
import Mittos64.Fs.AtaAlias
import Mittos64.Lib.Scatter
import Mittos64.Libc.FileIo
import Mittos64.Proc.AreaWalk
import Mittos64.Proc.NullFrame
import Mittos64.Proc.Spaces
import Mittos64.Proc.Covered
import Mittos64.Proc.SpaceCopy
import Mittos64.Proc.SpaceCalls
import Mittos64.Proc.SpaceRun
import Mittos64.Proc.SpaceStart
import Mittos64.Proc.Conserve
import Mittos64.Proc.Isolation
import Mittos64.Mem.Memmove
import Mittos64.Mem.Compare
import Mittos64.Boot.Debug
import Mittos64.Proc.Threads
import Mittos64.Boot.Tags
import Mittos64.Arch.Acpi
import Mittos64.Arch.IrqMap
import Mittos64.Lib.Rows
import Mittos64.Drivers.Vga
import Mittos64.Mem.Twins
import Mittos64.Proc.Alike
import Mittos64.Proc.Refill
import Mittos64.Proc.Leftover
import Mittos64.Boot.Vprintf
import Mittos64.Lib.Trace
import Mittos64.Lib.Tso
import Mittos64.Cpu.Sync
import Mittos64.Cpu.SyncRuns
import Mittos64.Proc.ReadyQueue
import Mittos64.Proc.Interrupt
import Mittos64.Lib.Ports
import Mittos64.Fs.AtaPorts
import Mittos64.Fs.AtaRefine
import Mittos64.Proc.SyscallCall
import Mittos64.Arch.Routing
import Mittos64.Cpu.BringupRuns
import Mittos64.Fs.PipeSync
import Mittos64.Proc.Await
