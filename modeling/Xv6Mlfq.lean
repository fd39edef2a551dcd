import Xv6Mlfq.Library.StepSystem
import Xv6Mlfq.Library.LinkedChain
import Xv6Mlfq.Library.Ring
import Xv6Mlfq.ProcData
import Xv6Mlfq.State
import Xv6Mlfq.Step
import Xv6Mlfq.Inversion
import Xv6Mlfq.Scans
import Xv6Mlfq.BootRun
import Xv6Mlfq.Control
import Xv6Mlfq.Runqueues
import Xv6Mlfq.Quantum
import Xv6Mlfq.Ticks
import Xv6Mlfq.Accounting
import Xv6Mlfq.Library.ProcTree
import Xv6Mlfq.ProcessTree
import Xv6Mlfq.Kill
import Xv6Mlfq.Wakeup
import Xv6Mlfq.Console
import Xv6Mlfq.Pipe
import Xv6Mlfq.Library.DList
import Xv6Mlfq.Bio
import Xv6Mlfq.Log
import Xv6Mlfq.Fs
import Xv6Mlfq.FileView
import Xv6Mlfq.Mkfs
import Xv6Mlfq.Path
import Xv6Mlfq.Queues
import Xv6Mlfq.File
import Xv6Mlfq.Virtio
import Xv6Mlfq.Library.ByteMem
import Xv6Mlfq.Vm
import Xv6Mlfq.Kalloc
import Xv6Mlfq.PageTable
import Xv6Mlfq.PageMap
import Xv6Mlfq.Libc
import Xv6Mlfq.Grep
import Xv6Mlfq.Umalloc
import Xv6Mlfq.UserMem
import Xv6Mlfq.Sh
import Xv6Mlfq.ShGrammar
import Xv6Mlfq.Printf
import Xv6Mlfq.Inodes
import Xv6Mlfq.Dir
