import BlackOS.Library.Ram
import BlackOS.Library.Run
import BlackOS.Library.Tiling
import BlackOS.LibcString
import BlackOS.Heap
import BlackOS.HeapLayout
import BlackOS.HeapSurgery
import BlackOS.HeapRelease
import BlackOS.HeapAllocate
import BlackOS.HeapRun
import BlackOS.HeapContract
import BlackOS.Library.Bitmap
import BlackOS.Pmm
import BlackOS.PmmFrames
import BlackOS.PmmInit
import BlackOS.PmmRun
import BlackOS.PmmAccount
import BlackOS.Library.Linked
import BlackOS.Scheduler
import BlackOS.SchedulerQueue
import BlackOS.SchedulerSwitch
import BlackOS.SchedulerRun
import BlackOS.SchedulerContract
import BlackOS.SystemMonitor
import BlackOS.Library.Ring
import BlackOS.Pipes
import BlackOS.PipesContract
import BlackOS.Spinlock
import BlackOS.MessageQueue
import BlackOS.Rwlock
import BlackOS.Semaphore
import BlackOS.Waitqueue
import BlackOS.Net
import BlackOS.Library.Sha2
import BlackOS.NetAgreement
import BlackOS.Sha256
import BlackOS.Sha256Contract
import BlackOS.Elf
import BlackOS.ElfContract
import BlackOS.LibcText
import BlackOS.Library.Separated
import BlackOS.Ramfs
import BlackOS.RamfsBuffer
import BlackOS.Vfs
import BlackOS.VfsMounts
import BlackOS.VfsUnmount
import BlackOS.VmmCow
import BlackOS.ElfTouches
import BlackOS.Mmap
import BlackOS.MmapMappings
import BlackOS.E1000
import BlackOS.ElfProcessed
import BlackOS.Keyboard
import BlackOS.NetChecksum
import BlackOS.SchedulerBudget
import BlackOS.SchedulerWake
import BlackOS.Security
import BlackOS.Process
import BlackOS.Seccomp
import BlackOS.Desktop
import BlackOS.FileSystems
import BlackOS.Library.Cuts
import BlackOS.Library.Simulation
import BlackOS.MessageQueues
import BlackOS.ProcessTree
import BlackOS.RingBuffer
import BlackOS.SharedMemory
import BlackOS.Slab
import BlackOS.SyscallReads
import BlackOS.HeapSizes
import BlackOS.RamfsNames
import BlackOS.HeapExact
import BlackOS.PmmBoot
import BlackOS.PmmBulk
import BlackOS.PmmIndices
import BlackOS.VmmCopy
import BlackOS.VmmExact
import BlackOS.Acpi
import BlackOS.AcpiWindow
import BlackOS.ElfFailure
import BlackOS.VmmUndisturbed
import BlackOS.Library.Gf2
import BlackOS.Crc32
import BlackOS.Library.Xorshift
import BlackOS.SecureRandom
import BlackOS.Bitset
import BlackOS.Library.Checked
import BlackOS.SlabTotal
import BlackOS.NetGeneration
import BlackOS.NetPayload
import BlackOS.ParserReads
import BlackOS.ParserAccepted
import BlackOS.ElfReads
import BlackOS.Sockets
import BlackOS.Arp
import BlackOS.Routes
import BlackOS.KeyboardModifiers
import BlackOS.Library.Cursor
import BlackOS.AcpiMadt
import BlackOS.AcpiTables
import BlackOS.LibcBuffer
import BlackOS.VfsBuffers
import BlackOS.RamfsPaths
import BlackOS.RamfsMkdir
import BlackOS.Library.Wrapped
import BlackOS.Terminal
import BlackOS.Gui
import BlackOS.Notepad
import BlackOS.GuiMouse
import BlackOS.GuiClicks
import BlackOS.ShellEnv
import BlackOS.ContextSwitch
import BlackOS.SerialFormat
import BlackOS.Library.X86
import BlackOS.Interrupts
import BlackOS.Idt
import BlackOS.Boot
import BlackOS.E1000Receive
import BlackOS.Ata
import BlackOS.Vga
import BlackOS.Framebuffer
import BlackOS.GuiTerminal
import BlackOS.GuiWm
import BlackOS.Library.ConfigSpace
import BlackOS.Pci
import BlackOS.GuiFrame
import BlackOS.GuiControls
import BlackOS.HeapPaged
