import CherryOS.Kernel.SleepOn
import CherryOS.Kernel.InterruptibleSleepOn
import CherryOS.Kernel.Resume
import CherryOS.Kernel.Frames
import CherryOS.Kernel.ProcessTree
import CherryOS.Kernel.Timer
import CherryOS.Kernel.Dispositions
import CherryOS.Kernel.Descriptors
import CherryOS.Kernel.ForkCopies
import CherryOS.Kernel.Traps
import CherryOS.Kernel.SystemCall
import CherryOS.Io.References
import CherryOS.Io.Eviction
import CherryOS.Io.NullPointers
import CherryOS.Fs.Layout
import CherryOS.Driver.Causes
import CherryOS.Driver.EscapeParser
import CherryOS.Driver.LineDiscipline
import CherryOS.Driver.EchoErase
import CherryOS.Kernel.Main
import CherryOS.Kernel.Nice
import CherryOS.Kernel.ForkAtomic
import CherryOS.Kernel.ExitTeardown
import CherryOS.Kernel.SignalFrame
import CherryOS.Kernel.SignalChoice
import CherryOS.Kernel.FindEmptyProcess
import CherryOS.Kernel.SegmentFields
import CherryOS.Kernel.KillTargets
import CherryOS.Kernel.Punctual
import CherryOS.Driver.KernelWrite
import CherryOS.Driver.LineCount
import CherryOS.Driver.EchoRoom
import CherryOS.Kernel.ForkResume
import CherryOS.Kernel.Star
import CherryOS.Kernel.Number
import CherryOS.Kernel.PrivateMemory
import CherryOS.Kernel.BoundedWait
import CherryOS.Kernel.Printk
import CherryOS.Io.Contents
import CherryOS.Kernel.Interrupts
import CherryOS.Boot.Head
import CherryOS.Kernel.Lifetimes
import CherryOS.Driver.Transcript
