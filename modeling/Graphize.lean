import Graphize.Lib.While
import Graphize.Lib.IntLoop
import Graphize.Lib.Machine
import Graphize.Lib.EdgeList
import Graphize.Lib.Dispatch
import Graphize.Lib.Numbering
import Graphize.Lib.Threads
import Graphize.Lib.Handover
import Graphize.Lib.Desk
import Graphize.Lib.Signals
import Graphize.Lib.FirstWins
import Graphize.Lib.Table
import Graphize.Lib.Tokens
import Graphize.Lib.Regroup
import Graphize.Lib.Crc
import Graphize.Spec.Node
import Graphize.Spec.Graph
import Graphize.Spec.GraphPtr
import Graphize.Spec.Config
import Graphize.Spec.Run
import Graphize.Spec.Echo
import Graphize.Spec.Redis
import Graphize.Spec.RedisResponse
import Graphize.Spec.MultiGet
import Graphize.Spec.RedisRun
import Graphize.Spec.RedisWorld
import Graphize.Spec.ConnectPool
import Graphize.Spec.ClusterNodes
import Graphize.Spec.RedisClient
import Graphize.Spec.RedisFetch
import Graphize.Spec.Deployment
import Graphize.Spec.ConcurrentService
import Graphize.Spec.Services
import Graphize.Spec.ThreadPool
import Graphize.Spec.Startup
import Graphize.Proof.Wiring
import Graphize.Proof.Init
import Graphize.Proof.Dispatching
import Graphize.Proof.Runs
import Graphize.Proof.Requests
import Graphize.Proof.Building
import Graphize.Proof.Registered
import Graphize.Proof.Declared
import Graphize.Proof.Reordered
import Graphize.Proof.Unresolved
import Graphize.Proof.Rootless
import Graphize.Proof.Unanswered
import Graphize.Proof.Batching
import Graphize.Proof.RedisMerge
import Graphize.Proof.RedisEvents
import Graphize.Proof.RedisStep
import Graphize.Proof.RedisEffects
import Graphize.Proof.RedisThreads
import Graphize.Proof.RedisCounts
import Graphize.Proof.RedisBatches
import Graphize.Proof.RedisFinish
import Graphize.Proof.RedisRuns
import Graphize.Proof.RedisMakeUp
import Graphize.Proof.RedisItems
import Graphize.Proof.RedisRefusals
import Graphize.Proof.RedisResponses
import Graphize.Proof.RedisCache
import Graphize.Proof.RedisThrows
import Graphize.Proof.RedisKeys
import Graphize.Proof.RedisParses
import Graphize.Proof.RedisPartly
import Graphize.Proof.RedisSequences
import Graphize.Proof.RedisAttribution
import Graphize.Proof.RedisStore
import Graphize.Proof.Recorded
import Graphize.Proof.Slicing
import Graphize.Proof.Services
import Graphize.Proof.Answering
import Graphize.Proof.ServiceClasses
import Graphize.Proof.ServiceGraph
import Graphize.Proof.ThreadPool
import Graphize.Proof.PoolRest
import Graphize.Proof.Lending
import Graphize.Proof.Shrinking
import Graphize.Proof.BorrowCounts
import Graphize.Proof.KeySlot
import Graphize.Proof.SlotTable
import Graphize.Proof.RedisSplits
import Graphize.Proof.MgetBatches
import Graphize.Proof.Topology
import Graphize.Proof.Refreshes
import Graphize.Proof.SlotRanges
import Graphize.Proof.ClientStart
import Graphize.Proof.Startup
import Graphize.Proof.Serving
import Graphize.Proof.ClusterText
import Graphize.Proof.ClusterRoutes
import Graphize.Proof.Deployment
import Graphize.Proof.Detection
import Graphize.Proof.SlotOwners
import Graphize.Proof.FreshPool
import Graphize.Proof.NullPools
import Graphize.Proof.Migration
