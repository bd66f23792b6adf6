import DeepOS.BitArray
import DeepOS.Transition
import DeepOS.CString
import DeepOS.PhyMem
import DeepOS.BootMap
import DeepOS.TarSize
import DeepOS.Strings
import DeepOS.Tarfs
import DeepOS.RoundRobin
import DeepOS.TaskTable
import DeepOS.Directory
import DeepOS.FileTree
import DeepOS.Listing
import DeepOS.Ls
import DeepOS.FileTable
import DeepOS.FileRead
import DeepOS.Scheduler
import DeepOS.TaskInvariant
import DeepOS.TaskRecord
import DeepOS.ExecTable
import DeepOS.FileOwnership
import DeepOS.Wakeup
import DeepOS.WaitStatus
import DeepOS.RadixForest
import DeepOS.PageTable
import DeepOS.PageMap
import DeepOS.StoreLaw
import DeepOS.VirtAlloc
import DeepOS.Clone
import DeepOS.CloneLaw
import DeepOS.Process
import DeepOS.AddressSpace
import DeepOS.TaskPages
import DeepOS.LoadImage
import DeepOS.Fork
import DeepOS.KernelInvariant
import DeepOS.ExecMemory
import DeepOS.Supply
import DeepOS.Boot
import DeepOS.BootTables
import DeepOS.PathSearch
import DeepOS.LoadedBytes
import DeepOS.Elf
import DeepOS.KernelImage
import DeepOS.Console
import DeepOS.SyscallTables
import DeepOS.Keyboard
import DeepOS.Readers
import DeepOS.MemLimit
import DeepOS.BumpHeap
import DeepOS.HeapBlocks
import DeepOS.BlockPlaces
import DeepOS.FailedExec
import DeepOS.VmaTable
import DeepOS.RadixPaths
import DeepOS.TablePaths
import DeepOS.Lowest
import DeepOS.BootPages
import DeepOS.BootMemory
import DeepOS.StrayPages
import DeepOS.WindowCover
import DeepOS.LineBuffer
import DeepOS.OpenFile
import DeepOS.ElfHeader
import DeepOS.Tokens
import DeepOS.CommandLine
import DeepOS.Numerals
import DeepOS.Printf
import DeepOS.Formatters
import DeepOS.IdleTask
import DeepOS.Setenv
import DeepOS.ExecStorage
import DeepOS.BootRun
import DeepOS.ForkRun
import DeepOS.ForkLaw
import DeepOS.WindowLaw
import DeepOS.NumberReaders
import DeepOS.SheBang
import DeepOS.Sleep
import DeepOS.WorkingDir
import DeepOS.Fairness
import DeepOS.Accounting
import DeepOS.ProcessTree
import DeepOS.Confinement
import DeepOS.KernelStacks
import DeepOS.ContextSwitch
import DeepOS.ForkReturn
import DeepOS.Terminal
import DeepOS.StatusBar
import DeepOS.StatusLine
import DeepOS.Echo
import DeepOS.LsCommand
