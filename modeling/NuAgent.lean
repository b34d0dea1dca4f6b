import NuAgent.Lib.Search
import NuAgent.Lib.CInt
import NuAgent.Lib.Bytes
import NuAgent.Lib.CString
import NuAgent.Lib.Circular
import NuAgent.Lib.Tiling
import NuAgent.Lib.Overlay
import NuAgent.Lib.Serial
import NuAgent.Lib.Crc
import NuAgent.Lib.Trace
import NuAgent.Lib.DList
import NuAgent.Lib.Tlv
import NuAgent.Lib.Retry
import NuAgent.Dhcp.Table
import NuAgent.Dhcp.Lookup
import NuAgent.Dhcp.Cases
import NuAgent.Dhcp.Server
import NuAgent.Dhcp.Lease
import NuAgent.Dhcp.Pool
import NuAgent.Dhcp.Offer
import NuAgent.Dhcp.Lifetime
import NuAgent.Dhcp.Ack
import NuAgent.Dhcp.Discover
import NuAgent.Dhcp.History
import NuAgent.Dhcp.Depend
import NuAgent.Dhcp.Options
import NuAgent.Dhcp.Grammar
import NuAgent.Dhcp.Reads
import NuAgent.Dhcp.RecvCb
import NuAgent.Dhcp.Stale
import NuAgent.Ring.Buffer
import NuAgent.Ring.Fifo
import NuAgent.Ring.Counters
import NuAgent.Queue.Cell
import NuAgent.Queue.Deque
import NuAgent.Queue.Run
import NuAgent.Heap.Dmem
import NuAgent.Heap.Inv
import NuAgent.Heap.Alloc
import NuAgent.Heap.Run
import NuAgent.Heap.Search
import NuAgent.Heap.Release
import NuAgent.Heap.Sizes
import NuAgent.Flash.Qspi
import NuAgent.Flash.Verify
import NuAgent.Flash.Write
import NuAgent.Flash.Sector
import NuAgent.Fatfs.Diskio
import NuAgent.Fatfs.DiskRead
import NuAgent.Fatfs.DiskWrite
import NuAgent.Fatfs.DiskResult
import NuAgent.Uart.Tx
import NuAgent.Uart.Rx
import NuAgent.Net.TcpServer
import NuAgent.Net.Sockets
import NuAgent.Net.Dns
import NuAgent.Lan.Dispatch
import NuAgent.Lan.Provision
import NuAgent.Lan.Leftover
import NuAgent.Config.Param
import NuAgent.Config.Setters
import NuAgent.Config.Persist
import NuAgent.SmartConfig.Crc8
import NuAgent.SmartConfig.Packet
import NuAgent.Wifi.Login
import NuAgent.Wifi.Join
import NuAgent.Ota.TcpClient
import NuAgent.Ota.Upgrade
import NuAgent.Ring.Alloc
import NuAgent.Lib.Holes
import NuAgent.Net.DnsServer
import NuAgent.Lib.DnsWire
import NuAgent.Net.DnsReply
import NuAgent.Net.DnsBounds
import NuAgent.Util.Crc32
import NuAgent.Util.MoveMem
import NuAgent.Util.DmaMove
import NuAgent.Lib.Ticks
import NuAgent.Net.SysArch
import NuAgent.Net.NtpClient
import NuAgent.Wifi.Sniffer
import NuAgent.Lib.TwoWire
import NuAgent.Util.SimuIic
import NuAgent.Lib.Numeral
import NuAgent.Lib.Lex
import NuAgent.Text.Compare
import NuAgent.Text.Trim
import NuAgent.Text.Numbers
import NuAgent.Text.Print
import NuAgent.Lib.Bitmap
import NuAgent.Lib.Broker
import NuAgent.Rtos.State
import NuAgent.Rtos.Services
import NuAgent.Rtos.Machine
import NuAgent.Rtos.Tables
import NuAgent.Rtos.Invariant
import NuAgent.Rtos.Keeps
import NuAgent.Rtos.Runs
import NuAgent.Rtos.Traffic
import NuAgent.Rtos.Delivery
import NuAgent.Rtos.Delay
import NuAgent.Rtos.Boot
import NuAgent.Rtos.Correctness
import NuAgent.Lib.Gf256
import NuAgent.Lib.Cbc
import NuAgent.Crypto.Aes
import NuAgent.Crypto.Rijndael
import NuAgent.Crypto.AesCipher
import NuAgent.Crypto.AesMode
import NuAgent.Text.Base64
import NuAgent.Lib.NullList
import NuAgent.Lib.Chains
import NuAgent.Fatfs.Volume
import NuAgent.Fatfs.Window
import NuAgent.Fatfs.FatEntry
import NuAgent.Fatfs.ClusterChain
import NuAgent.Fatfs.Release
import NuAgent.Fatfs.FreeCount
import NuAgent.Fatfs.Files
import NuAgent.Fatfs.FileRun
import NuAgent.Fatfs.Mount
import NuAgent.Fatfs.Acts
import NuAgent.Fatfs.Sectors
import NuAgent.Fatfs.FileData
import NuAgent.Fatfs.Restart
import NuAgent.Timer.State
import NuAgent.Timer.Alarm
import NuAgent.Timer.Wheel
import NuAgent.Timer.Tick
import NuAgent.Timer.Run
