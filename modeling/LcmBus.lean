import LcmBus.Lib.BigEndian
import LcmBus.Lib.OrderedMap
import LcmBus.Lib.Run
import LcmBus.Lib.Loop
import LcmBus.Lib.Tiling
import LcmBus.Lib.Tickets
import LcmBus.Lib.Incremental
import LcmBus.Lib.Split
import LcmBus.Lib.Decimal
import LcmBus.Wire.Basic
import LcmBus.Wire.Udpm
import LcmBus.Bus.Url
import LcmBus.Wire.UdpmLayout
import LcmBus.Wire.UdpmSizes
import LcmBus.Wire.UdpmGrammar
import LcmBus.Wire.Reassembler
import LcmBus.Wire.Assembly
import LcmBus.Wire.Independence
import LcmBus.Wire.Stored
import LcmBus.Wire.Delivery
import LcmBus.Wire.RoundTrip
import LcmBus.Wire.Complete
import LcmBus.Wire.Books
import LcmBus.Wire.Rejected
import LcmBus.Wire.Evictions
import LcmBus.Wire.Limits
import LcmBus.Wire.Tcpq
import LcmBus.Wire.TcpqFormat
import LcmBus.Wire.Log
import LcmBus.Wire.LogEntries
import LcmBus.Wire.LogFormat
import LcmBus.Bus.ReadBuffer
import LcmBus.Bus.BufferRuns
import LcmBus.Bus.Subscriptions
import LcmBus.Bus.Escaped
import LcmBus.Bus.Values
import LcmBus.Bus.BusUrl
import LcmBus.Bus.UrlRound
import LcmBus.Bus.Receiver
import LcmBus.Client.Multicast
import LcmBus.Client.Outbox
import LcmBus.Client.OutboxCounts
import LcmBus.Client.OutboxOrder
import LcmBus.Client.Writer
import LcmBus.Client.WriterEnds
import LcmBus.Client.LinkWire
import LcmBus.Client.OutboxTickets
import LcmBus.Client.OutboxBudget
import LcmBus.Client.OutboxGone
import LcmBus.Client.BindAddress
import LcmBus.Client.Rules
import LcmBus.Client.Serve
import LcmBus.Client.Dial
import LcmBus.Client.LoopEnds
import LcmBus.Client.StreamReader
import LcmBus.Client.StreamReads
import LcmBus.Client.RelayRules
import LcmBus.Client.Dispatch
import LcmBus.Client.DispatchSteps
import LcmBus.Client.DispatchOrder
import LcmBus.Client.LogReader
import LcmBus.Client.LogCut
import LcmBus.Client.LogSeek
import LcmBus.Client.LogLies
import LcmBus.Client.LogEnds
import LcmBus.Client.LogDamage
import LcmBus.Client.LogWriter
import LcmBus.Client.RulesTexts
import LcmBus.System.Relayed
import LcmBus.System.RelayedLinks
import LcmBus.System.RelayedStreams
import LcmBus.System.RelayedOrder
import LcmBus.Lib.Collect
import LcmBus.Client.MulticastReader
import LcmBus.Client.MulticastWire
import LcmBus.System.Group
import LcmBus.System.Recorded
import LcmBus.Client.DispatchVisits
import LcmBus.System.Served
import LcmBus.System.RelayedReach
import LcmBus.Bus.Pace
import LcmBus.Client.Connect
import LcmBus.Client.Deliveries
import LcmBus.Client.LifeCloses
import LcmBus.Client.LogPace
import LcmBus.Wire.Greeting
import LcmBus.System.Opening
