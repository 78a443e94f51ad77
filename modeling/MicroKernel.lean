import MicroKernel.System.Run
import MicroKernel.Memblock.Basic
import MicroKernel.Memblock.Canon
import MicroKernel.Memblock.Find
import MicroKernel.Memblock.Safety
import MicroKernel.Memblock.Capacity
import MicroKernel.DList.Basic
import MicroKernel.Object.Structures
import MicroKernel.Sched.ReadyQueue
import MicroKernel.Sched.Scheduler
import MicroKernel.Sched.Context
import MicroKernel.CSpace.Lookup
import MicroKernel.Ipc.Transfer
import MicroKernel.Ipc.Endpoint
import MicroKernel.Kernel.Trap
import MicroKernel.Kernel.Resume
import MicroKernel.Kernel.Exit
import MicroKernel.Ipc.Consistency
import MicroKernel.Ipc.Order
import MicroKernel.Ipc.Rights
import MicroKernel.Object.ObjectType
import MicroKernel.Object.Tags
import MicroKernel.Ipc.Notification
import MicroKernel.Object.References
import MicroKernel.CSpace.Bounds
import MicroKernel.Ipc.Grant
import MicroKernel.Ipc.WaitQueue
import MicroKernel.Ipc.Signals
import MicroKernel.Memblock.Highest
import MicroKernel.Memblock.Image
import MicroKernel.Ram.Basic
import MicroKernel.Vm.Entry
import MicroKernel.Vm.PageTable
import MicroKernel.Vm.Blocks
import MicroKernel.Vm.Invariant
import MicroKernel.Vm.Walk
import MicroKernel.Vm.UserMemory
import MicroKernel.Radix.Basic
import MicroKernel.Vm.Lookup
import MicroKernel.Vm.Mapping
import MicroKernel.Vm.KernelMap
import MicroKernel.Vm.Boot
import MicroKernel.Vm.Isolation
import MicroKernel.Vm.DirectMap
import MicroKernel.Vm.KernelWindow
import MicroKernel.Extent.Canonical
import MicroKernel.Memblock.Total
import MicroKernel.Memblock.Order
import MicroKernel.Disk.Basic
import MicroKernel.FileSystem.Log
import MicroKernel.Memblock.Clear
import MicroKernel.FileSystem.Crash
import MicroKernel.Object.Untyped
import MicroKernel.System.Frame
import MicroKernel.Vm.Links
import MicroKernel.Vm.Load
import MicroKernel.Vm.Loading
import MicroKernel.Vm.Loader
import MicroKernel.Vm.Copy
import MicroKernel.Vm.Unmapped
import MicroKernel.Vm.Foreign
import MicroKernel.Vm.Segments
import MicroKernel.Vm.IpcBuffer
import MicroKernel.Vm.LoadReturns
import MicroKernel.Ipc.Message
import MicroKernel.Ipc.ExtraCaps
import MicroKernel.Ipc.Unwrap
import MicroKernel.Vm.Growth
import MicroKernel.Ipc.Detach
import MicroKernel.Ipc.Binding
import MicroKernel.Ipc.Wake
import MicroKernel.Object.Creation
import MicroKernel.Object.Layout
import MicroKernel.CSpace.Outcome
import MicroKernel.CSpace.Derivation
import MicroKernel.System.While
import MicroKernel.Vm.Scan
import MicroKernel.Vm.Plugins
import MicroKernel.Kernel.Boundary
import MicroKernel.Acpi.Madt
import MicroKernel.Boot.Bootmain
import MicroKernel.Ipc.Accessors
import MicroKernel.Plugin.PageServer
import MicroKernel.Console.Number
import MicroKernel.Console.Screen
import MicroKernel.FileSystem.Cache
import MicroKernel.FileSystem.Content
import MicroKernel.Plugin.Ide
import MicroKernel.Memblock.Iterate
import MicroKernel.FileSystem.Path
import MicroKernel.Buddy.Basic
import MicroKernel.Kernel.Descriptors
import MicroKernel.Kernel.TrapEntry
import MicroKernel.Vm.EntryTables
import MicroKernel.Boot.Pio
import MicroKernel.Console.Printf
import MicroKernel.Plugin.IdePorts
import MicroKernel.Bitmap.Basic
import MicroKernel.FileSystem.BlockAlloc
import MicroKernel.FileSystem.BlockCrash
import MicroKernel.FileSystem.InodeCache
import MicroKernel.FileSystem.FileTable
import MicroKernel.Boot.E820
import MicroKernel.Ipc.Authority
import MicroKernel.Kernel.Progress
import MicroKernel.Acpi.Tables
import MicroKernel.Kernel.Main
import MicroKernel.Vm.Reserved
import MicroKernel.Kernel.IpcTest
