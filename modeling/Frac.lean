import Frac.Lib.Clocked
import Frac.Lib.ByteMem
import Frac.Lib.Bytes
import Frac.Lib.Fifo
import Frac.Lib.Latency
import Frac.Lib.Ledger
import Frac.Lib.Largest
import Frac.Lib.Interleave
import Frac.Lib.Join
import Frac.Reconf.Controller
import Frac.Reconf.Moves
import Frac.Reconf.System
import Frac.Reconf.Axi
import Frac.Reconf.WriteHbm
import Frac.Reconf.Icap
import Frac.Reconf.Isolation
import Frac.Reconf.Completion
import Frac.Reconf.Port
import Frac.Reconf.Validation
import Frac.Reconf.ReadHbm
import Frac.Reconf.Responses
import Frac.Reconf.QueryStatus
import Frac.Reassembly.Scheduler
import Frac.Reassembly.Intake
import Frac.Reassembly.Conservation
import Frac.Reassembly.Merge
import Frac.Reassembly.Ownership
import Frac.Reassembly.Exclusive
import Frac.Reassembly.Dispatcher
import Frac.Reassembly.Identity
import Frac.Reassembly.Agreement
import Frac.Reassembly.Arbiter
import Frac.Reassembly.Whole
import Frac.Reassembly.Solo
import Frac.Reassembly.Segmentation
import Frac.Reconf.Progress
import Frac.Reassembly.Backpressure
import Frac.Reassembly.Credits
import Frac.PktLogic.Branch
import Frac.PktLogic.Packets
import Frac.PktLogic.Sessions
import Frac.Client.Requests
import Frac.Slots.Echo
import Frac.Slots.Log
import Frac.Slots.Norm
import Frac.Slots.TopK
import Frac.Slots.Stream
import Frac.Slots.Resets
import Frac.Slots.Flight
import Frac.Slots.LogLines
import Frac.Slots.LogStream
import Frac.Slots.LogOperands
import Frac.Slots.NormLines
import Frac.Slots.NormStream
import Frac.Slots.NormOperands
import Frac.Slots.Operands
import Frac.Slots.TopKStream
import Frac.Slots.Lengths
import Frac.Slots.CnnParser
import Frac.PktLogic.Exchange
import Frac.PktLogic.Segments
import Frac.PktLogic.Operations
import Frac.Client.Session
import Frac.Client.Upload
import Frac.Client.Verify
import Frac.Client.Framing
import Frac.Client.AppLoop
import Frac.Client.Swap
import Frac.Client.Staging
import Frac.Tcp.Sender
import Frac.Tcp.Transmit
import Frac.Tcp.Receiver
import Frac.Lib.Elastic
import Frac.Axis.Register
import Frac.Axis.Arbiter
import Frac.Axis.Fifo
import Frac.Axis.Switch
import Frac.Client.Payload
import Frac.Client.TopKList
import Frac.Control.Lifecycle
import Frac.PktLogic.Egress
import Frac.PktLogic.Outbound
import Frac.Reassembly.Pipeline
import Frac.Tcp.Listen
