import LFGateway.Foundation.Machine
import LFGateway.Foundation.Amortized
import LFGateway.RateLimit.Impl.TokenBucket
import LFGateway.RateLimit.Lemmas.TokenBucket
import LFGateway.RateLimit.Lemmas.RateBound
import LFGateway.RateLimit.Lemmas.Skew
import LFGateway.Foundation.Fifo
import LFGateway.Foundation.ListSet
import LFGateway.ThreadPool.Impl
import LFGateway.ThreadPool.Drain
import LFGateway.ThreadPool.Shutdown
import LFGateway.EventLoop.Lemmas
import LFGateway.EventLoop.Quit
import LFGateway.Foundation.Bytes
import LFGateway.Net.Impl.TcpConnection
import LFGateway.Net.Lemmas.Registry
import LFGateway.Net.Lemmas.Output
import LFGateway.Net.Lemmas.Registration
import LFGateway.Foundation.Threads
import LFGateway.Gateway.Lemmas.Limits
import LFGateway.Gateway.Lemmas.Framing
import LFGateway.Stream.Delivery
import LFGateway.Gateway.Lemmas.Auth
import LFGateway.Gateway.Lemmas.Isolation
import LFGateway.Stream.Bootstrap
import LFGateway.Stream.Cluster
import LFGateway.Pools.Lemmas.MySQLPool
import LFGateway.Pools.Lemmas.Outage
import LFGateway.Pools.Lemmas.Handles
import LFGateway.Routes.Coherence
import LFGateway.Routes.Handles
import LFGateway.Gateway.Lemmas.Order
import LFGateway.Gateway.Lemmas.Shutdown
import LFGateway.Logger.Lemmas
import LFGateway.Timer.Deadlines
import LFGateway.Timer.Iterators
import LFGateway.Timer.Undisturbed
import LFGateway.MemoryPool.Separation
import LFGateway.Redis.Replies
import LFGateway.Stream.Statement
import LFGateway.Gateway.Lemmas.Answers
import LFGateway.Routes.Replies
import LFGateway.Http.Incremental
import LFGateway.Http.RequestLine
import LFGateway.Http.Written
import LFGateway.Http.Grammar
import LFGateway.RateLimit.Lemmas.Expiry
import LFGateway.RateLimit.Lemmas.Range
import LFGateway.Gateway.Lemmas.Delimited
import LFGateway.Gateway.Lemmas.Latency
import LFGateway.Routes.Order
import LFGateway.RateLimit.Lemmas.FixedWindow
import LFGateway.Gateway.Lemmas.HeaderNames
import LFGateway.Routes.Printed
import LFGateway.Routes.DeleteId
import LFGateway.Gateway.Lemmas.Wire
import LFGateway.Gateway.Lemmas.Counters
import LFGateway.Stream.Pipeline
import LFGateway.Gateway.Lemmas.Admission
import LFGateway.MemoryPool.Growth
import LFGateway.Gateway.Lemmas.Undated
import LFGateway.Gateway.Lemmas.Progress
