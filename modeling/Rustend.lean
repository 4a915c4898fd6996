import Rustend.Lib.Program
import Rustend.Lib.Interleaving
import Rustend.Lib.CommitPoint
import Rustend.Lib.Layers
import Rustend.Core.Json
import Rustend.Core.Revision
import Rustend.Core.Protocol
import Rustend.Server.Database
import Rustend.Server.Push
import Rustend.Lib.Frontier
import Rustend.Server.History
import Rustend.Server.Isolation
import Rustend.Server.PushSafe
import Rustend.Server.Pull
import Rustend.Server.Runs
import Rustend.Server.PullSpec
import Rustend.Server.Cursor
import Rustend.Lib.KeyedStore
import Rustend.Client.Idb
import Rustend.Client.Repository
import Rustend.Client.Sync
import Rustend.Client.Alone
import Rustend.Server.Alone
import Rustend.Client.World
import Rustend.Client.Offline
import Rustend.Client.Concurrent
import Rustend.Client.Restart
import Rustend.Client.LocalWrites
import Rustend.Server.Batch
import Rustend.Server.Serial
import Rustend.Server.Durable
import Rustend.Server.Http
import Rustend.Server.Site
import Rustend.Server.Responses
import Rustend.Client.Created
import Rustend.Client.Resolve
import Rustend.Server.ReadBack
import Rustend.Client.Filters
import Rustend.Client.Replica
import Rustend.Client.Writers
import Rustend.Client.Retry
import Rustend.Client.Heads
import Rustend.Server.Comparison
import Rustend.Server.ObjectRead
import Rustend.Client.Schema
import Rustend.Client.IndexQuery
import Rustend.Client.Backed
import Rustend.Client.Identity
import Rustend.Client.Endpoint
import Rustend.Client.Carriage
import Rustend.Client.Fleet
import Rustend.Client.FleetSafe
import Rustend.Client.Agreement
import Rustend.Server.Selection
import Rustend.Client.Quiescent
