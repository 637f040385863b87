import Xinu.Lib.Extents
import Xinu.Lib.LinkedPath
import Xinu.Lib.Runs
import Xinu.Memory
import Xinu.Message
import Xinu.Semaphore
import Xinu.Process
import Xinu.System
import Xinu.SchedOrder
import Xinu.SendRefine
import Xinu.Callback
import Xinu.ContextSwitch
import Xinu.Notice
import Xinu.Registration
import Xinu.Start
import Xinu.SemCount
import Xinu.SleepTime
import Xinu.TtyLine
import Xinu.TtyOutput
import Xinu.Lexan
import Xinu.Lfs
import Xinu.LfsFormat
import Xinu.LfsModes
import Xinu.LfsOpen
import Xinu.RdsBuffers
import Xinu.RdsReads
import Xinu.NetChecksum
import Xinu.IpQueue
import Xinu.IcmpQueue
import Xinu.UdpSlots
import Xinu.Arp
import Xinu.NetBounds
import Xinu.Shell
import Xinu.ShellArgs
import Xinu.Names
import Xinu.Freemem
import Xinu.Getmem
import Xinu.IntegerFormat
import Xinu.IntegerScan
import Xinu.EthRead
import Xinu.EthWrite
import Xinu.Dns
import Xinu.Dhcp
import Xinu.Tftp
import Xinu.InuseList
import Xinu.InuseOrder
import Xinu.Stacks
import Xinu.Meminit
import Xinu.SemRange
import Xinu.DeltaQueue
import Xinu.PriorityQueue
import Xinu.CreateStack
import Xinu.PortQueue
import Xinu.PortInv
import Xinu.PortRuns
import Xinu.LfsCheck
import Xinu.RdsAvail
import Xinu.RdsProcess
import Xinu.RdsComm
import Xinu.RdsOpen
import Xinu.ShellFiles
import Xinu.NameInit
import Xinu.ArpCache
import Xinu.NetMask
import Xinu.DnsNames
import Xinu.DnsQuery
import Xinu.DnsAnswers
import Xinu.Dot2ip
import Xinu.EthMcast
import Xinu.Rfs
import Xinu.RfsNames
import Xinu.Qsort
import Xinu.Mark
import Xinu.AscDate
import Xinu.ConfigY
import Xinu.PortClear
import Xinu.PortCapacity
import Xinu.LfsRuns
import Xinu.PortFifo
import Xinu.BufPool
import Xinu.HeapRuns
