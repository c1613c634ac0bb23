import PiggyOs.Bitmap
import PiggyOs.Macros
import PiggyOs.Transition
import PiggyOs.Pmm
import PiggyOs.PmmRuns
import PiggyOs.LinkedChain
import PiggyOs.SlabCache
import PiggyOs.SlabCacheInvariant
import PiggyOs.PageSource
import PiggyOs.SlabCacheRuns
import PiggyOs.Kmalloc
import PiggyOs.KmallocRoundTrip
import PiggyOs.KmallocInvariant
import PiggyOs.SlabInit
import PiggyOs.KmallocRuns
import PiggyOs.KmallocDispatch
import PiggyOs.ByteMemory
import PiggyOs.Vmm
import PiggyOs.VmmRefinement
import PiggyOs.VmmFork
import PiggyOs.VmmDestroy
import PiggyOs.KernelHalf
import PiggyOs.Elf
import PiggyOs.ElfConfined
import PiggyOs.ProcessFork
import PiggyOs.RingBuf
import PiggyOs.CString
import PiggyOs.HashMap
import PiggyOs.FileCalls
import PiggyOs.TmpfsHoles
import PiggyOs.Sbrk
import PiggyOs.IntrusiveList
import PiggyOs.Sched
import PiggyOs.ProcessWait
import PiggyOs.Separated
import PiggyOs.Vfs
import PiggyOs.VfsPath
import PiggyOs.VfsCreate
import PiggyOs.CoveredTree
import PiggyOs.VfsDots
import PiggyOs.Getdents
import PiggyOs.Descriptors
import PiggyOs.OpenCalls
import PiggyOs.AccessMode
import PiggyOs.RefCounts
import PiggyOs.Stdio
import PiggyOs.UserAccess
import PiggyOs.Append
import PiggyOs.TmpfsOwnership
import PiggyOs.KernelTree
import PiggyOs.DirectoryListing
import PiggyOs.Pathname
import PiggyOs.Getcwd
import PiggyOs.MountChains
import PiggyOs.PointerVector
import PiggyOs.ProcessTree
import PiggyOs.Reaping
import PiggyOs.UserStacks
import PiggyOs.PmmContract
import PiggyOs.SlabReuse
import PiggyOs.TtyCanon
import PiggyOs.MallocFree
import PiggyOs.MallocRuns
import PiggyOs.Sleep
import PiggyOs.Stream
import PiggyOs.StreamReading
import PiggyOs.StreamWriting
import PiggyOs.Printf
import PiggyOs.PrintfBackEnds
import PiggyOs.Environ
import PiggyOs.TerminatedArray
import PiggyOs.EnvironMap
import PiggyOs.AtaChannel
import PiggyOs.Translation
import PiggyOs.ElfImage
import PiggyOs.TmpfsRead
import PiggyOs.PathnameStores
import PiggyOs.CreateDefined
import PiggyOs.FdDup
import PiggyOs.PmmCompleteness
import PiggyOs.TmpfsGrowth
import PiggyOs.StaleLookup
import PiggyOs.ExecArguments
import PiggyOs.WaitAny
import PiggyOs.ArgumentStack
import PiggyOs.BitmapInit
import PiggyOs.HeapResize
import PiggyOs.Krealloc
import PiggyOs.GetdentsBuffer
import PiggyOs.LargePages
import PiggyOs.FiveLevelFork
import PiggyOs.DirectMap
import PiggyOs.Calendar
import PiggyOs.Clocks
import PiggyOs.Timegm
import PiggyOs.Rtc
import PiggyOs.TarNumbers
import PiggyOs.Initrd
import PiggyOs.MallocLimits
import PiggyOs.Ungetc
import PiggyOs.UserBuffer
import PiggyOs.FlushLoop
import PiggyOs.PrintfDigits
import PiggyOs.PrintfIntegers
import PiggyOs.PrintfBounds
import PiggyOs.Memmove
import PiggyOs.Runs
import PiggyOs.Strtok
import PiggyOs.StrtolGrammar
import PiggyOs.NumberRoundTrip
import PiggyOs.PartitionScan
import PiggyOs.PartitionTables
import PiggyOs.Qsort
import PiggyOs.AtaTransfers
import PiggyOs.EnvironAssign
import PiggyOs.Getopt
import PiggyOs.PrintfPieces
import PiggyOs.Strftime
import PiggyOs.StrftimeTexts
import PiggyOs.AtaTaskFile
import PiggyOs.InterruptRouting
import PiggyOs.Madt
import PiggyOs.RingBufTail
import PiggyOs.PciAccess
import PiggyOs.PciBars
import PiggyOs.PciEnumeration
import PiggyOs.PathSplit
import PiggyOs.Cmdline
import PiggyOs.StrftimeRuns
import PiggyOs.X86
import PiggyOs.InterruptFrame
import PiggyOs.ContextSwitch
import PiggyOs.SchedFairness
import PiggyOs.Setjmp
import PiggyOs.SyscallPath
import PiggyOs.Random
import PiggyOs.FileStreams
