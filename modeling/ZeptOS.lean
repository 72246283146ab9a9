import ZeptOS.Log.Reserve
import ZeptOS.Fs.Fault
import ZeptOS.Fs.Path
import ZeptOS.Fs.Writers
import ZeptOS.Console.Line
import ZeptOS.Mem.ForkCopy
import ZeptOS.Exec
import ZeptOS.Mem.DirectMap
import ZeptOS.Dtb.Parse
import ZeptOS.Sched.Cycle
import ZeptOS.Sched.Harts
import ZeptOS.Sched.Pipe
import ZeptOS.Bio.Readers
import ZeptOS.Dtb.Lookup
import ZeptOS.Printf
import ZeptOS.Grep.Lines
import ZeptOS.Strings
import ZeptOS.Read.Agree
import ZeptOS.Trap
