import GlipOsd.Backends.BlockingWrite
import GlipOsd.Backends.CypressFx2Open
import GlipOsd.Backends.Deadline
import GlipOsd.Backends.NonBlockingRead
import GlipOsd.Backends.TcpOpen
import GlipOsd.Backends.TcpRead
import GlipOsd.CircularBuffer.Interleaved
import GlipOsd.CircularBuffer.Model
import GlipOsd.CircularBuffer.Queue
import GlipOsd.CircularBuffer.TemporaryBlocks
import GlipOsd.CircularBuffer.ThreadSafety
import GlipOsd.CircularBuffer.Threads
import GlipOsd.CircularBuffer.Wakeup
import GlipOsd.CypressFx2.DataPath
import GlipOsd.CypressFx2.Flush
import GlipOsd.CypressFx2.Threads
import GlipOsd.DemUart.Blocking
import GlipOsd.DemUart.CharDelivery
import GlipOsd.DemUart.Model
import GlipOsd.DemUart.Nasti
import GlipOsd.DemUart.Packets
import GlipOsd.DemUart.RegisterInterface
import GlipOsd.Dii
import GlipOsd.DiiBuffer.EarlyReady
import GlipOsd.DiiBuffer.Fifo
import GlipOsd.DiiBuffer.FullPacket
import GlipOsd.DiiBuffer.PacketSize
import GlipOsd.Foundations.BigEndian
import GlipOsd.Foundations.Bits
import GlipOsd.Foundations.Bytes
import GlipOsd.Foundations.Clocked
import GlipOsd.Foundations.Gray
import GlipOsd.Foundations.Ledger
import GlipOsd.Foundations.Matcher
import GlipOsd.Foundations.Memory
import GlipOsd.Foundations.Merging
import GlipOsd.Foundations.Mirror
import GlipOsd.Foundations.Packets
import GlipOsd.Foundations.Pairs
import GlipOsd.Foundations.Potentials
import GlipOsd.Foundations.Refinement
import GlipOsd.Foundations.Runs
import GlipOsd.Foundations.ShiftRegister
import GlipOsd.Foundations.Streams
import GlipOsd.Foundations.Tokens
import GlipOsd.Foundations.Worms
import GlipOsd.Him.Capacity
import GlipOsd.Him.Egress
import GlipOsd.Him.Framing
import GlipOsd.Him.Ingress
import GlipOsd.Jtag.Acceptance
import GlipOsd.Jtag.ByteOrder
import GlipOsd.Jtag.CdcFifo
import GlipOsd.Jtag.Chunking
import GlipOsd.Jtag.ChunkingExact
import GlipOsd.Jtag.CommandSize
import GlipOsd.Jtag.Conservation
import GlipOsd.Jtag.Discovery
import GlipOsd.Jtag.Draining
import GlipOsd.Jtag.DrscanComplete
import GlipOsd.Jtag.DrscanRead
import GlipOsd.Jtag.DrscanRoundTrip
import GlipOsd.Jtag.DrscanWrite
import GlipOsd.Jtag.Headers
import GlipOsd.Jtag.Hex
import GlipOsd.Jtag.Host
import GlipOsd.Jtag.InputFsm
import GlipOsd.Jtag.LogicReset
import GlipOsd.Jtag.OutputFsm
import GlipOsd.Jtag.PinScans
import GlipOsd.Jtag.Poll
import GlipOsd.Jtag.PollThread
import GlipOsd.Jtag.Response
import GlipOsd.Jtag.ResponseFrame
import GlipOsd.Jtag.Round
import GlipOsd.Jtag.RqAckSync
import GlipOsd.Jtag.Scans
import GlipOsd.Jtag.StartOpenocd
import GlipOsd.Jtag.SyncFifo
import GlipOsd.Jtag.Tap
import GlipOsd.Jtag.TckDomain
import GlipOsd.Jtag.Toplevel
import GlipOsd.Jtag.Transfer
import GlipOsd.Jtag.WordCodec
import GlipOsd.Jtag.WordStream
import GlipOsd.Measure.Throughput
import GlipOsd.Options.Getters
import GlipOsd.Options.ParseOptions
import GlipOsd.Options.RoundTrip
import GlipOsd.Ring.Components
import GlipOsd.Ring.Delivery
import GlipOsd.Ring.Draining
import GlipOsd.Ring.Multiplexers
import GlipOsd.Ring.Progress
import GlipOsd.Ring.Router
import GlipOsd.Ring.Stages
import GlipOsd.Ring.Worms
import GlipOsd.Scaler.Streams
import GlipOsd.Scm.Answers
import GlipOsd.Statctrlif.ExternalAccess
import GlipOsd.Statctrlif.InvalidFlits
import GlipOsd.Statctrlif.Model
import GlipOsd.Statctrlif.PacketSync
import GlipOsd.Statctrlif.Responses
import GlipOsd.Tcp.Control
import GlipOsd.Tcp.Cycle
import GlipOsd.Tcp.Disconnect
import GlipOsd.Tcp.Model
import GlipOsd.Tcp.Segmentation
import GlipOsd.Tcp.Server
import GlipOsd.Tcp.SystemC
import GlipOsd.Tcp.Words
import GlipOsd.Testbench.Delivery
import GlipOsd.Testbench.Draining
import GlipOsd.Testbench.Enumeration
import GlipOsd.Testbench.Greeting
import GlipOsd.Testbench.HostPort
import GlipOsd.Uart.Credit
import GlipOsd.Uart.Creditor
import GlipOsd.Uart.Decoding
import GlipOsd.Uart.Duplex
import GlipOsd.Uart.Egress
import GlipOsd.Uart.EgressStream
import GlipOsd.Uart.Grant
import GlipOsd.Uart.Host
import GlipOsd.Uart.HostCredit
import GlipOsd.Uart.HostLine
import GlipOsd.Uart.Ingress
import GlipOsd.Uart.IngressStream
import GlipOsd.Uart.Line
import GlipOsd.Uart.LineCoding
import GlipOsd.Uart.ReadBlocking
import GlipOsd.Uart.Setup
import GlipOsd.Uart.WidthCrossing
import GlipOsd.Uart.Wire
import GlipOsd.Util
