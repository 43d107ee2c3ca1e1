import Sephi.Transition
import Sephi.EventLoop
import Sephi.Outbox
import Sephi.Lifecycle
import Sephi.Inbox
import Sephi.Pipeline
import Sephi.Monitor
import Sephi.Events
import Sephi.EventSets
import Sephi.NameTable
import Sephi.IpcNames
import Sephi.SharedMemory
import Sephi.Ranges
import Sephi.PriorityQueue
import Sephi.MqHdr
import Sephi.MqInsertion
import Sephi.MqPriority
import Sephi.MqMessages
import Sephi.Waiting
import Sephi.MessageQueue
import Sephi.MqService
import Sephi.MqBlock
import Sephi.MqSettling
import Sephi.MqCalls
import Sephi.MqVariants
import Sephi.MqLayout
import Sephi.Drain
import Sephi.NetTypes
import Sephi.TcpClient
import Sephi.ClientSending
import Sephi.Serial
import Sephi.SerialSending
import Sephi.SendQueues
import Sephi.RunLoops
import Sephi.CurrentReads
import Sephi.SerialSettling
import Sephi.SerialFifo
import Sephi.SerialReopening
import Sephi.SerialReading
import Sephi.ClientReports
import Sephi.ClientReading
import Sephi.ClientSteady
import Sephi.ClientClosing
import Sephi.TcpSession
import Sephi.TcpServer
import Sephi.TcpRegistry
import Sephi.ServerThreads
import Sephi.SessionRegistry
import Sephi.ServerClosing
import Sephi.SessionIds
import Sephi.AnnouncedSessions
import Sephi.SessionReports
import Sephi.SessionSending
import Sephi.SessionReading
import Sephi.SessionListening
import Sephi.Echo
import Sephi.EchoLinks
import Sephi.EchoDelivery
import Sephi.EchoTurns
import Sephi.EchoWork
import Sephi.EchoSettling
import Sephi.Udp
import Sephi.UdpReading
import Sephi.UdpDraining
import Sephi.Storage
import Sephi.UdpSending
