import PolyCache.Eviction.LRU
import PolyCache.Library.Transition
import PolyCache.Storage.Model
import PolyCache.Storage.Accounting
import PolyCache.Storage.Expiry
import PolyCache.Library.Decimal
import PolyCache.Protocol.Parser
import PolyCache.Aof.Base64
import PolyCache.Aof.Log
import PolyCache.Library.Resp
import PolyCache.Protocol.Consume
import PolyCache.Protocol.Grammar
import PolyCache.Protocol.Cursor
import PolyCache.Protocol.RoundTrip
import PolyCache.Server.Command
import PolyCache.Server.Reply
import PolyCache.Aof.Compact
import PolyCache.Aof.Recovery
import PolyCache.Aof.Replay
import PolyCache.Server.Connection
import PolyCache.Server.Node
import PolyCache.Server.Output
import PolyCache.Server.Restart
import PolyCache.Eviction.Contract
import PolyCache.Eviction.Reference
import PolyCache.Server.Logged
import PolyCache.Server.Tables
import PolyCache.Storage.Metrics
import PolyCache.Storage.TimedMap
import PolyCache.Protocol.Accept
import PolyCache.Server.Session
import PolyCache.Storage.Recent
import PolyCache.Server.Presence
import PolyCache.Server.Sending
import PolyCache.Server.Reading
import PolyCache.Server.Options
import PolyCache.Aof.Codec
import PolyCache.Admin.Segments
import PolyCache.Eviction.Frequency
import PolyCache.Limits
import PolyCache.Storage.Linear
import PolyCache.Aof.Boots
import PolyCache.Server.Promises
import PolyCache.Server.Process
import PolyCache.Server.Shutdown
import PolyCache.Server.Lives
import PolyCache.Bench.Conn
import PolyCache.Bench.Conversation
import PolyCache.Eviction.Destruction
import PolyCache.Storage.Lifetime
import PolyCache.Server.Growth
import PolyCache.Server.Causes
import PolyCache.Bench.Pipeline
import PolyCache.Storage.Mutexes
