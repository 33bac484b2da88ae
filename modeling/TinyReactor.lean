import TinyReactor.ApiServer.Answers
import TinyReactor.ApiServer.Capacity
import TinyReactor.ApiServer.Shares
import TinyReactor.Executor.Backoff
import TinyReactor.Executor.Bounds
import TinyReactor.Executor.Deadline
import TinyReactor.Executor.Fib
import TinyReactor.Executor.Fields
import TinyReactor.Executor.Gates
import TinyReactor.Executor.Provenance
import TinyReactor.Executor.Refusals
import TinyReactor.Executor.Rest
import TinyReactor.Executor.Timers
import TinyReactor.GrpcClient.Futures
import TinyReactor.GrpcClient.Shutdown
import TinyReactor.GrpcClient.Stream
import TinyReactor.GrpcClient.Submit
import TinyReactor.Hazard.Completeness
import TinyReactor.Hazard.Progress
import TinyReactor.Hazard.Reuse
import TinyReactor.Hazard.Slots
import TinyReactor.Queue.Forward
import TinyReactor.Queue.Lifetime
import TinyReactor.Queue.Linearizable
import TinyReactor.Queue.LockFree
import TinyReactor.Queue.Protocol
import TinyReactor.Rpc.EndToEnd
import TinyReactor.ThreadPool.Backlog
import TinyReactor.ThreadPool.Completion
import TinyReactor.ThreadPool.Requests
import TinyReactor.ThreadPool.Serial
import TinyReactor.ThreadPool.Shutdown
import TinyReactor.Wire.Erosion
import TinyReactor.Wire.Schema
import TinyReactor.Worker.Containment
import TinyReactor.Worker.Settling
