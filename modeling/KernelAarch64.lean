import KernelAarch64.Common.Bitmap.Memory
import KernelAarch64.Common.Format
import KernelAarch64.Common.Format.Buffer
import KernelAarch64.Common.Format.Items
import KernelAarch64.Common.List
import KernelAarch64.Common.Memory
import KernelAarch64.Common.SpinLock
import KernelAarch64.Common.String
import KernelAarch64.Core.AddressSpaces
import KernelAarch64.Core.AddressSpaces.Isolation
import KernelAarch64.Core.Arena
import KernelAarch64.Core.Arena.Pages
import KernelAarch64.Core.Console.Messages
import KernelAarch64.Core.Container
import KernelAarch64.Core.Mmu
import KernelAarch64.Core.PhysicalMemory
import KernelAarch64.Core.PhysicalMemory.Machine
import KernelAarch64.Core.Proc
import KernelAarch64.Core.Proc.Load
import KernelAarch64.Core.Proc.Start
import KernelAarch64.Core.Proc.Wakeup
import KernelAarch64.Core.Sched
import KernelAarch64.Core.Sched.AllocPcb
import KernelAarch64.Core.Sched.OneCpu
import KernelAarch64.Core.SleepLock
import KernelAarch64.Core.Spawn
import KernelAarch64.Core.Swtch
import KernelAarch64.Core.Threads
import KernelAarch64.Core.Trap
import KernelAarch64.Core.VirtualMemory
import KernelAarch64.Core.VirtualMemory.Built
import KernelAarch64.Core.VirtualMemory.Free
import KernelAarch64.Core.VirtualMemory.Range
import KernelAarch64.Core.VirtualMemory.Restore
import KernelAarch64.Core.VirtualMemory.Tables
import KernelAarch64.Driver.Sd
import KernelAarch64.Driver.SdCalls
import KernelAarch64.Driver.SdQueue
import KernelAarch64.Driver.SdSleep
import KernelAarch64.Fs.Cache
import KernelAarch64.Fs.Cache.Allocator
import KernelAarch64.Fs.Cache.Atomicity
import KernelAarch64.Fs.Cache.Bitmap
import KernelAarch64.Fs.Cache.BitmapLayout
import KernelAarch64.Fs.Cache.Capacity
import KernelAarch64.Fs.Cache.Deadlock
import KernelAarch64.Fs.Cache.Durability
import KernelAarch64.Fs.Cache.Eviction
import KernelAarch64.Fs.Cache.Log
import KernelAarch64.Fs.Cache.OpLimit
import KernelAarch64.Fs.Cache.Rep
import KernelAarch64.Fs.Cache.System
import KernelAarch64.Fs.Cache.View
import KernelAarch64.Fs.Cache.Zeroed
import KernelAarch64.Fs.CacheRing
import KernelAarch64.Fs.Inode
import KernelAarch64.Fs.Inode.Bcache
import KernelAarch64.Fs.Inode.BlockMap
import KernelAarch64.Fs.Inode.ByteArray
import KernelAarch64.Fs.Inode.Calls
import KernelAarch64.Fs.Inode.DirEntry
import KernelAarch64.Fs.Inode.Directory
import KernelAarch64.Fs.Inode.Growth
import KernelAarch64.Fs.Inode.Layout
import KernelAarch64.Fs.Inode.Lifecycle
import KernelAarch64.Fs.Inode.Loaded
import KernelAarch64.Fs.Inode.MapCalls
import KernelAarch64.Fs.Inode.Names
import KernelAarch64.Fs.Inode.Races
import KernelAarch64.Fs.Inode.Recorded
import KernelAarch64.Fs.Inode.StructDirectory
import KernelAarch64.Fs.Inode.Structs
import KernelAarch64.Fs.Inode.Survive
import KernelAarch64.Fs.Inode.WriteThrough
import KernelAarch64.Lib.AArch64
import KernelAarch64.Lib.Bytes
import KernelAarch64.Lib.Follows
import KernelAarch64.Lib.Moves
import KernelAarch64.Lib.Numeral
import KernelAarch64.Lib.Radix
import KernelAarch64.Lib.Radix.Visit
import KernelAarch64.Lib.RedoLog
import KernelAarch64.Lib.Ring
import KernelAarch64.Lib.Slots
import KernelAarch64.Lib.Steps
import KernelAarch64.Lib.Token
import KernelAarch64.Lib.Words
