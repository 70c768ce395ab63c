import Xv6.Exec
import Xv6.ProcSleep
import Xv6.ProcMonitor
import Xv6.Ring
import Xv6.Pipe
import Xv6.PipeFifo
import Xv6.PipeSleepers
import Xv6.Wait
import Xv6.WaitFamily
import Xv6.WaitProtocol
import Xv6.BitField
import Xv6.Disk
import Xv6.Log
import Xv6.LogInvariant
import Xv6.LogCommit
import Xv6.LogCrash
import Xv6.Kalloc
import Xv6.Vm
import Xv6.PageTree
import Xv6.UserView
import Xv6.UserCopy
import Xv6.Kexec
import Xv6.ExecSpace
import Xv6.SysMem
import Xv6.SysFile
import Xv6.LogSpace
import Xv6.CondWait
import Xv6.Console
import Xv6.KillWindow
import Xv6.Kill
import Xv6.Sched
import Xv6.SchedSafe
import Xv6.Bio
import Xv6.BioCache
import Xv6.BioContent
import Xv6.BioRun
import Xv6.BioTransparent
import Xv6.BioExhaust
import Xv6.Icache
import Xv6.IcacheCoherent
import Xv6.FsLayout
import Xv6.Fs
import Xv6.FsSys
import Xv6.SlotMap
import Xv6.FsView
import Xv6.FsBlock
import Xv6.FsAlloc
import Xv6.FsTrunc
import Xv6.FsInode
import Xv6.FsReadWrite
import Xv6.FsNow
import Xv6.FsDir
import Xv6.FsPath
import Xv6.FsIdle
import Xv6.FsLink
import Xv6.FsCreate
import Xv6.FsFile
import Xv6.FsProc
import Xv6.FsRun
import Xv6.FsSafe
import Xv6.FsRefs
import Xv6.FsBalance
import Xv6.FsOk
import Xv6.IcacheInv
import Xv6.LinkedRing
import Xv6.LogRecover
import Xv6.Mkfs
import Xv6.MkfsImage
import Xv6.ProcSpace
import Xv6.Prog
import Xv6.Ticks
import Xv6.UserMem
import Xv6.MkfsBuild
import Xv6.MkfsLimits
import Xv6.FsName
import Xv6.MkfsKernel
import Xv6.FsRecord
import Xv6.FsContents
import Xv6.FsTorn
import Xv6.ConsoleLine
import Xv6.ConsoleHistory
import Xv6.ConsoleReads
import Xv6.Sh
import Xv6.ShGrammar
import Xv6.ShParse
import Xv6.PageRange
import Xv6.PageMap
import Xv6.MemUndo
import Xv6.SysInv
import Xv6.SysProc
import Xv6.Fork
import Xv6.SysCalls
import Xv6.SysRun
import Xv6.FsTable
import Xv6.Grep
import Xv6.Printf
import Xv6.Memmove
