import Ulysses.Lib.Reach
import Ulysses.Lib.Loop
import Ulysses.Lib.Word
import Ulysses.Lib.Bytes
import Ulysses.Lib.Buckets
import Ulysses.Lib.Bitmap
import Ulysses.Lib.Tiling
import Ulysses.Lib.Linked
import Ulysses.Lib.Chain
import Ulysses.Lib.ByteStore
import Ulysses.Lib.CString
import Ulysses.Lib.Calendar
import Ulysses.Lib.X86
import Ulysses.Cpu
import Ulysses.SpinLock
import Ulysses.SpinLock.Threads
import Ulysses.HashTable.Basic
import Ulysses.HashTable.Shape
import Ulysses.HashTable.Lossless
import Ulysses.HashTable.Sound
import Ulysses.HashTable.Memory
import Ulysses.HashTable.Refinement
import Ulysses.HashTable.Representation
import Ulysses.HashTable.Iterator
import Ulysses.HashTable.Cursor
import Ulysses.HashTable.Fetch
import Ulysses.OrderedArray
import Ulysses.OrderedArray.Slots
import Ulysses.Paging.Basic
import Ulysses.Paging.Frames
import Ulysses.Paging.KernelHalf
import Ulysses.Paging.Clone
import Ulysses.Paging.Apart
import Ulysses.Paging.Isolation
import Ulysses.Paging.Physical
import Ulysses.Paging.Boot
import Ulysses.Paging.BootMap
import Ulysses.KHeap.Basic
import Ulysses.KHeap.Layout
import Ulysses.KHeap.Alloc
import Ulysses.KHeap.Grow
import Ulysses.KHeap.Free
import Ulysses.KHeap.Blocks
import Ulysses.KHeap.Tags
import Ulysses.KHeap.Carve
import Ulysses.KHeap.BestFit
import Ulysses.KHeap.Progress
import Ulysses.KHeap.Contract
import Ulysses.Process
import Ulysses.Process.Demand
import Ulysses.Process.Break
import Ulysses.Descriptors
import Ulysses.Elf.Basic
import Ulysses.Elf.Table
import Ulysses.Elf.Library
import Ulysses.Elf.Exec
import Ulysses.Elf.Layout
import Ulysses.Elf.Args
import Ulysses.Elf.Reexec
import Ulysses.Fork
import Ulysses.LinkedList
import Ulysses.LinkedList.Sequence
import Ulysses.ExternalList
import Ulysses.Scheduler.Basic
import Ulysses.Scheduler.RunQueues
import Ulysses.Scheduler.Invariant
import Ulysses.Scheduler.Consistent
import Ulysses.Scheduler.Wakeups
import Ulysses.Scheduler.Moves
import Ulysses.Scheduler.Contexts
import Ulysses.Scheduler.Yield
import Ulysses.Scheduler.Sleep
import Ulysses.Console.Basic
import Ulysses.Console.Reader
import Ulysses.Console.Stream
import Ulysses.Console.Screen
import Ulysses.Console.Printf
import Ulysses.Keyboard
import Ulysses.Rtl8139
import Ulysses.Rtc
import Ulysses.Block.Region
import Ulysses.Block.Ata
import Ulysses.Block.Device
import Ulysses.Block.RawRead
import Ulysses.Block.TaskFile
import Ulysses.Block.Request
import Ulysses.Block.Partition
import Ulysses.Block.FixString
import Ulysses.Ext2.Basic
import Ulysses.Ext2.Mounting
import Ulysses.Ext2.Cache
import Ulysses.Ext2.Blocks
import Ulysses.Ext2.Inodes
import Ulysses.Ext2.Read
import Ulysses.Ext2.Directory
import Ulysses.Ext2.Scan
import Ulysses.Ext2.EndOfFile
import Ulysses.Fs.Name
import Ulysses.Fs.File
import Ulysses.Tmpfs.File
import Ulysses.SysString
import Ulysses.Common.Compare
import Ulysses.Tmpfs.Directory
import Ulysses.Tmpfs.Listing
import Ulysses.Tar.Octal
import Ulysses.Tar
import Ulysses.Fs.Lookup
import Ulysses.Fs.Namespace
import Ulysses.Fs.Mount
import Ulysses.Fs.FailedMount
import Ulysses.Fs.Devfs
import Ulysses.Fs.Position
import Ulysses.Tmpfs.Append
import Ulysses.Initrd.Basic
import Ulysses.Initrd.Image
import Ulysses.Common.Copy
import Ulysses.Initrd.RoundTrip
import Ulysses.Syscalls
import Ulysses.Interrupt.Tables
import Ulysses.Interrupt.Stubs
import Ulysses.Interrupt.SystemCalls
import Ulysses.Scheduler.Processes
import Ulysses.Scheduler.Waiting
