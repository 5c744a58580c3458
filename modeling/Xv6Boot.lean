import Xv6Boot.Bootloader.Loading
import Xv6Boot.Kernel.CopyInStr
import Xv6Boot.Kernel.LogSpace
import Xv6Boot.Kernel.LogDurability
import Xv6Boot.Kernel.Reaping
import Xv6Boot.Kernel.Kill
import Xv6Boot.Kernel.PipeWakeup
import Xv6Boot.Kernel.Bcache
import Xv6Boot.Kernel.Sleeplock
import Xv6Boot.Kernel.VirtioProtocol
import Xv6Boot.Kernel.ShortWrite
import Xv6Boot.Kernel.WriteLog
import Xv6Boot.Kernel.FileAccounting
import Xv6Boot.Kernel.KallocRuns
import Xv6Boot.Kernel.KernelMap
import Xv6Boot.Kernel.PipeRead
import Xv6Boot.Kernel.CommitBuffers
import Xv6Boot.Kernel.Console
import Xv6Boot.User.ShPrint
import Xv6Boot.Kernel.ExecArgs
import Xv6Boot.User.PrintfAgree
import Xv6Boot.User.UmallocSbrk
import Xv6Boot.Kernel.Interrupts
