import Libucmq.Store.Crc16
import Libucmq.Store.Count
import Libucmq.Store.Sync
import Libucmq.Store.Paths
import Libucmq.Store.Crash
import Libucmq.Store.Capacity
import Libucmq.Store.Consume
import Libucmq.Store.HeadCount
import Libucmq.Store.ReadFail
import Libucmq.Net.Async
import Libucmq.Http.Lookup
import Libucmq.Http.Body
import Libucmq.Http.SyncAsk
import Libucmq.Redis.Topology
import Libucmq.Redis.RoundTrip
import Libucmq.Store.Transfer
import Libucmq.Store.LogTime
import Libucmq.Store.Torn
import Libucmq.Supex.Pool
import Libucmq.Supex.Sniff
import Libucmq.Supex.Deliver
import Libucmq.Supex.NoMemory
import Libucmq.Supex.HashCount
import Libucmq.Cutils.Url
import Libucmq.Topo.RoadList
import Libucmq.Crzpt.Schedule
import Libucmq.Coro.Supply
import Libucmq.Swift.Release
import Libucmq.Engine.Ldb
import Libucmq.Engine.Match
import Libucmq.Topo.Bath
import Libucmq.Weibo.Parments
import Libucmq.GreatWall.Label
import Libucmq.Lua.Decoder
import Libucmq.Lua.Conv
import Libucmq.Supex.Shared
import Libucmq.Net.Exchange
