import Tanenbaum.Lib.Runs
import Tanenbaum.Lib.Latch
import Tanenbaum.Lib.Blocks
import Tanenbaum.Lib.Bytes
import Tanenbaum.Lib.CString
import Tanenbaum.Lib.Scanner
import Tanenbaum.Lib.Feed
import Tanenbaum.Lib.Lines
import Tanenbaum.Lib.Terminal
import Tanenbaum.Lib.Handshake
import Tanenbaum.Lib.Rings
import Tanenbaum.Lib.Circular
import Tanenbaum.Lib.Waiting
import Tanenbaum.Lib.Epochs
import Tanenbaum.Lib.Tiles
import Tanenbaum.Kernel.Lists
import Tanenbaum.Kernel.ListUse
import Tanenbaum.Kernel.Queues
import Tanenbaum.Kernel.Blocking
import Tanenbaum.Kernel.Ticks
import Tanenbaum.Kernel.Timeouts
import Tanenbaum.Kernel.Selection
import Tanenbaum.Kernel.Scheduler
import Tanenbaum.Kernel.Priorities
import Tanenbaum.Kernel.Inversion
import Tanenbaum.Kernel.Loans
import Tanenbaum.Kernel.Heap
import Tanenbaum.Kernel.FreeList
import Tanenbaum.Kernel.Allocator
import Tanenbaum.Newlib.Sbrk
import Tanenbaum.Newlib.Break
import Tanenbaum.Newlib.Stdin
import Tanenbaum.Cli.Rtc
import Tanenbaum.Cli.Commands
import Tanenbaum.Cli.Grammar
import Tanenbaum.Cli.Parse
import Tanenbaum.Cli.Calendar
import Tanenbaum.Cli.Session
import Tanenbaum.Cli.Reads
import Tanenbaum.Cli.Atomicity
import Tanenbaum.Cli.Shadow
import Tanenbaum.Cli.Cells
import Tanenbaum.Cli.Task
import Tanenbaum.Cli.Legality
import Tanenbaum.Tty.LineDiscipline
import Tanenbaum.Tty.Corrections
import Tanenbaum.Tty.Screen
import Tanenbaum.Tty.Driver
import Tanenbaum.Tty.Interrupt
import Tanenbaum.Tty.Calls
import Tanenbaum.Tty.Transmit
import Tanenbaum.Tty.Wire
import Tanenbaum.Tty.TransmitCount
import Tanenbaum.Tty.Receive
import Tanenbaum.Tty.Wakeup
import Tanenbaum.Tty.ReceiveCount
import Tanenbaum.Tty.Ownership
import Tanenbaum.Tty.Echo
import Tanenbaum.Tty.Service
import Tanenbaum.Usb.Strings
