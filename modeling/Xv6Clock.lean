import Xv6Clock.Console
import Xv6Clock.ConsoleLock
import Xv6Clock.DumpRaw
import Xv6Clock.ExecAtomic
import Xv6Clock.FileLog
import Xv6Clock.FileRuns
import Xv6Clock.ForkClock
import Xv6Clock.GetpgtableSnapshot
import Xv6Clock.Grep
import Xv6Clock.Kill
import Xv6Clock.LogCrash
import Xv6Clock.LogRoom
import Xv6Clock.MencryptAlgebra
import Xv6Clock.NullPte
import Xv6Clock.PageFlat
import Xv6Clock.PipeIo
import Xv6Clock.ShellAccepts
import Xv6Clock.SysLink
import Xv6Clock.UmallocSize
