import Radish.Library.Incremental
import Radish.Library.Consumer
import Radish.Library.LittleEndian
import Radish.Library.Decimal
import Radish.Library.Ledger
import Radish.Library.LedgerSummary
import Radish.Library.LedgerReading
import Radish.Library.Postcondition
import Radish.Types
import Radish.BinaryFile
import Radish.RadishEvent
import Radish.RadishStore
import Radish.LogReader
import Radish.CompactStrategy
import Radish.LogWriter
import Radish.RadishDB
import Radish.LogGrammar
import Radish.Recovery
import Radish.StoreLedger
import Radish.Compaction
import Radish.CompactedState
import Radish.CallHistory
import Radish.Restart
import Radish.Durability
import Radish.Crash
import Radish.Sessions
import Radish.RespCodec
import Radish.RespGrammar
import Radish.RespParser
import Radish.RespReply
import Radish.RespConnection
import Radish.TcpServer
import Radish.Handlers
import Radish.Fragmentation
import Radish.ReplyFrame
import Radish.Pipeline
import Radish.SessionOutput
import Radish.NormalForm
import Radish.KeyCommands
import Radish.Perpetual
import Radish.CompactionBound
import Radish.ReachableStore
import Radish.Keyspace
import Radish.ReadsAndRefusals
import Radish.ServerOptions
import Radish.ExpiryWindow
import Radish.Library.Transition
import Radish.Library.SharedLock
import Radish.ConcurrentDB
import Radish.ConcurrentCrash
import Radish.Delivery
import Radish.Server
import Radish.SmallRecords
import Radish.Robustness
import Radish.Lifetimes
import Radish.HandlerInvariants
import Radish.Negotiation
import Radish.ClientStreams
import Radish.Understanding
import Radish.DatabaseGrowth
import Radish.PipelinedClients
import Radish.Transparency
import Radish.Meaning
import Radish.ServerMeaning
import Radish.UntimedDatabase
import Radish.Continuity
import Radish.Provenance
import Radish.ClockReadings
import Radish.Uninterrupted
import Radish.ClockReadings
import Radish.Uninterrupted
