import Jos.Boot.Main
import Jos.Kern.Cga
import Jos.Kern.Console
import Jos.Kern.Debuginfo
import Jos.Kern.Kdebug
import Jos.Kern.Keyboard
import Jos.Kern.Monitor
import Jos.Kern.Mpconfig
import Jos.Kern.Schedule
import Jos.Kern.System
import Jos.Lib.LinkedList
import Jos.Lib.Outcome
import Jos.Lib.RefCount
import Jos.Pmap.Addressable
import Jos.Pmap.BootMap
import Jos.Pmap.FreeList
import Jos.Pmap.LargePages
import Jos.Pmap.Mmio
import Jos.Pmap.PageInit
import Jos.System.Aps
import Jos.System.BigLock
import Jos.System.Conservation
import Jos.System.Counting
import Jos.System.Cputs
import Jos.System.Debuginfo
import Jos.System.Destruction
import Jos.System.Freeing
import Jos.System.Ids
import Jos.System.Image
import Jos.System.Isolation
import Jos.System.Mappings
import Jos.System.Overflow
import Jos.System.Progress
import Jos.System.Receivers
import Jos.System.Refinement
import Jos.System.Registers
import Jos.System.RoundRobin
import Jos.System.Tlb
import Jos.System.Transfer
import Jos.System.UserMem
import Jos.Ulib.Fork
import Jos.Ulib.Numeric
import Jos.Ulib.Printf
import Jos.Ulib.Readline
import Jos.Ulib.Snprintf
import Jos.Ulib.Strings
import Jos.Ulib.Strtol
import Jos.Ulib.Vprintfmt
import Jos.User.Sieve
