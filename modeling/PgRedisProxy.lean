import PgRedisProxy.Base.Bytes
import PgRedisProxy.Base.Block
import PgRedisProxy.Base.Numeral
import PgRedisProxy.Base.Scan
import PgRedisProxy.Base.SqlText
import PgRedisProxy.Base.Runs
import PgRedisProxy.Base.SqlScript
import PgRedisProxy.Base.Resp
import PgRedisProxy.Base.KeyValue
import PgRedisProxy.Base.Access
import PgRedisProxy.Base.Heap
import PgRedisProxy.Base.Loop
import PgRedisProxy.Base.Path
import PgRedisProxy.Base.Autocommit
import PgRedisProxy.Base.Parties
import PgRedisProxy.Cache.ProxyHash
import PgRedisProxy.Cache.CellMap
import PgRedisProxy.Cache.ArgumentReads
import PgRedisProxy.Store.Logger
import PgRedisProxy.Store.WorkWithDb
import PgRedisProxy.Store.Requests
import PgRedisProxy.Store.Tiers
import PgRedisProxy.Store.Coherence
import PgRedisProxy.Store.Staleness
import PgRedisProxy.Store.DeferredDump
import PgRedisProxy.Store.Durability
import PgRedisProxy.Store.Failures
import PgRedisProxy.Store.CellCalls
import PgRedisProxy.Store.Statements
import PgRedisProxy.Store.LogNodes
import PgRedisProxy.Store.LogAllocation
import PgRedisProxy.Store.Transaction
import PgRedisProxy.Store.Conversation
import PgRedisProxy.Store.Execution
import PgRedisProxy.Store.Intended
import PgRedisProxy.Reply.PostgresReqvConverter
import PgRedisProxy.Reply.RedisReqvConverter
import PgRedisProxy.Reply.Execution
import PgRedisProxy.Reply.Transparency
import PgRedisProxy.Reply.RoundTrip
import PgRedisProxy.Socket.Parser
import PgRedisProxy.Socket.ReadLoop
import PgRedisProxy.Socket.Feeding
import PgRedisProxy.Socket.Fields
import PgRedisProxy.Socket.Trace
import PgRedisProxy.Socket.Numbers
import PgRedisProxy.Socket.Bounds
import PgRedisProxy.Socket.Decoding
import PgRedisProxy.Socket.Moves
import PgRedisProxy.Socket.Serving
import PgRedisProxy.Socket.Turns
import PgRedisProxy.Socket.Indeterminate
import PgRedisProxy.Socket.Grammar
import PgRedisProxy.Socket.WriteQueue
import PgRedisProxy.Socket.Closing
import PgRedisProxy.Reply.Pipelining
import PgRedisProxy.Reply.Contents
import PgRedisProxy.Server.EventLoop
import PgRedisProxy.Server.Serial
import PgRedisProxy.Server.Serializable
import PgRedisProxy.Server.Worker
import PgRedisProxy.Server.Execution
import PgRedisProxy.Server.Writing
import PgRedisProxy.Server.Survival
import PgRedisProxy.Server.OneMap
import PgRedisProxy.Server.Regimes
import PgRedisProxy.Server.Crash
import PgRedisProxy.Server.Restarts
import PgRedisProxy.Server.Interruption
import PgRedisProxy.Server.ReplyMemory
import PgRedisProxy.Server.Indeterminate
import PgRedisProxy.Start.Configuration
import PgRedisProxy.Start.Loading
import PgRedisProxy.Start.Directives
import PgRedisProxy.Start.Integers
import PgRedisProxy.Start.InitTable
import PgRedisProxy.Start.Slots
import PgRedisProxy.Start.Buffers
import PgRedisProxy.Server.Startup
