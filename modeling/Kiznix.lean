import Kiznix.SchedSemaphore
import Kiznix.SchedSpinlock
import Kiznix.SchedTimer
import Kiznix.SchedIdle
import Kiznix.MemBootFrames
import Kiznix.MemStackWindow
import Kiznix.MemThreadStack
import Kiznix.PicRun
import Kiznix.AcpiInterrupts
import Kiznix.AcpiSemaphore
import Kiznix.Console
import Kiznix.PrintfConsole
import Kiznix.InterruptTable
import Kiznix.Timer
import Kiznix.SchedBypass
import Kiznix.MemBootSpace
import Kiznix.MemCoherence
import Kiznix.MemAlloc
import Kiznix.MemUnmap
import Kiznix.MemMapPages
import Kiznix.MemPreempt
import Kiznix.MemDemand
import Kiznix.ThreadList
import Kiznix.CString
import Kiznix.Pci
import Kiznix.ConsoleColor
import Kiznix.Multiboot
import Kiznix.MallocRun
