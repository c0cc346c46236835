import LiteExchange.Lib.Checked
import LiteExchange.Lib.Linked
import LiteExchange.Lib.Sweep
import LiteExchange.Lib.Ring
import LiteExchange.Lib.Framing
import LiteExchange.Lib.Stage
import LiteExchange.Proto.Messages
import LiteExchange.Proto.Codec
import LiteExchange.Proto.Layout
import LiteExchange.Queue.Spsc
import LiteExchange.Queue.Weak
import LiteExchange.Book.Pool
import LiteExchange.Book.PriceLevel
import LiteExchange.Book.LevelBitmap
import LiteExchange.Book.OrderBook
import LiteExchange.Book.Reference
import LiteExchange.Book.Threading
import LiteExchange.Book.Matching
import LiteExchange.Book.Calls
import LiteExchange.Book.Desk
import LiteExchange.Book.Refinement
import LiteExchange.Book.Limits
import LiteExchange.Book.Ledger
import LiteExchange.Book.Crossing
import LiteExchange.Book.Priority
import LiteExchange.Book.Mirror
import LiteExchange.Book.Token
import LiteExchange.Book.Admission
import LiteExchange.Book.Stack
import LiteExchange.Book.Alike
import LiteExchange.Book.Immediate
import LiteExchange.Engine.Shard
import LiteExchange.Engine.Forged
import LiteExchange.Engine.Log
import LiteExchange.Engine.Arena
import LiteExchange.Engine.Cancels
import LiteExchange.Engine.Reports
import LiteExchange.Engine.Market
import LiteExchange.Engine.Account
import LiteExchange.Engine.Exhaustive
import LiteExchange.Engine.Isolation
import LiteExchange.Engine.Traceless
import LiteExchange.Engine.Immediate
import LiteExchange.Engine.Sides
import LiteExchange.Engine.Settled
import LiteExchange.Engine.Router
import LiteExchange.Engine.ShardSet
import LiteExchange.Engine.Sharding
import LiteExchange.Net.Session
import LiteExchange.Net.RoundTrip
import LiteExchange.Net.Buffer
import LiteExchange.Net.Ingress
import LiteExchange.Net.Connections
import LiteExchange.Net.Gateway
import LiteExchange.Net.UringGateway
import LiteExchange.Net.UringSends
import LiteExchange.Net.Delivery
import LiteExchange.Net.Ownership
import LiteExchange.Net.Routing
import LiteExchange.Net.Lossless
import LiteExchange.Net.Retry
import LiteExchange.Net.Sending
import LiteExchange.Net.UringOrder
import LiteExchange.Net.Exchange
import LiteExchange.Net.Progress
import LiteExchange.Net.UringExchange
