import DistributedSoftmax.Foundations.Transition
import DistributedSoftmax.Foundations.TaskPool
import DistributedSoftmax.Foundations.KeyValue
import DistributedSoftmax.Foundations.ByteString
import DistributedSoftmax.Foundations.Decimal
import DistributedSoftmax.Foundations.Order
import DistributedSoftmax.Foundations.Folds
import DistributedSoftmax.Foundations.Barrier
import DistributedSoftmax.Foundations.Softmax
import DistributedSoftmax.Foundations.Rounding
import DistributedSoftmax.Foundations.Spacing
import DistributedSoftmax.Numbers
import DistributedSoftmax.Json
import DistributedSoftmax.JsonText
import DistributedSoftmax.Worker.Softmax
import DistributedSoftmax.Worker.Handler
import DistributedSoftmax.Worker.NcclLoop
import DistributedSoftmax.Worker.GpuWorker
import DistributedSoftmax.Worker.GpuPasses
import DistributedSoftmax.Worker.Rendezvous
import DistributedSoftmax.Worker.Zmq
import DistributedSoftmax.Gateway.Config
import DistributedSoftmax.Gateway.RedisManager
import DistributedSoftmax.Gateway.SoftmaxCpu
import DistributedSoftmax.Gateway.SliceNotifier
import DistributedSoftmax.Gateway.Aggregator
import DistributedSoftmax.Gateway.Collection
import DistributedSoftmax.Gateway.ReadHistory
import DistributedSoftmax.Gateway.Registry
import DistributedSoftmax.Gateway.Publisher
import DistributedSoftmax.Gateway.Service
import DistributedSoftmax.Gateway.Slicing
import DistributedSoftmax.Gateway.StatusView
import DistributedSoftmax.Gateway.JsonFallback
import DistributedSoftmax.Gateway.GpuAggregator
import DistributedSoftmax.Server.SliceNotifier
import DistributedSoftmax.Server.GatewayServer
import DistributedSoftmax.ExactReals
import DistributedSoftmax.Ieee754
import DistributedSoftmax.RoundedSoftmax
import DistributedSoftmax.RoundedSum
import DistributedSoftmax.System.KeySpace
import DistributedSoftmax.System.SliceCodec
import DistributedSoftmax.System.SliceKinds
import DistributedSoftmax.System.TwoPass
import DistributedSoftmax.System.Probability
import DistributedSoftmax.System.NcclPath
import DistributedSoftmax.System.GpuAggregation
import DistributedSoftmax.System.GpuMaximum
import DistributedSoftmax.System.BlockSums
import DistributedSoftmax.System.Messages
import DistributedSoftmax.System.JobIdPrefix
import DistributedSoftmax.System.Jobs
import DistributedSoftmax.System.JobEffects
import DistributedSoftmax.System.JobSafety
import DistributedSoftmax.System.JobResults
import DistributedSoftmax.System.WorkerPools
import DistributedSoftmax.System.WorkerProgress
import DistributedSoftmax.System.Submission
import DistributedSoftmax.System.RankShares
import DistributedSoftmax.System.SlicePartition
import DistributedSoftmax.System.RankQueues
import DistributedSoftmax.System.Lockstep
import DistributedSoftmax.System.NcclProgress
import DistributedSoftmax.System.NcclJobs
import DistributedSoftmax.System.NcclRanks
import DistributedSoftmax.System.NcclSafety
import DistributedSoftmax.System.NcclResults
import DistributedSoftmax.System.Wakeup
import DistributedSoftmax.System.FaultFree
import DistributedSoftmax.System.Completion
import DistributedSoftmax.System.JobKeys
import DistributedSoftmax.System.Expiry
import DistributedSoftmax.System.FinalResult
import DistributedSoftmax.System.FailureStatus
import DistributedSoftmax.System.StatusOrder
import DistributedSoftmax.System.Rendezvous
import DistributedSoftmax.System.Validation
import DistributedSoftmax.System.Answerable
import DistributedSoftmax.System.ResultSum
import DistributedSoftmax.System.MixedWorkers
import DistributedSoftmax.System.ServerJobs
import DistributedSoftmax.System.ServerEffects
import DistributedSoftmax.System.ServerSafety
import DistributedSoftmax.System.ServerResults
import DistributedSoftmax.System.ServerCounting
import DistributedSoftmax.System.ServerWakeup
