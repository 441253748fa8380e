import RpsServe.Lib.Except
import RpsServe.Scheduler.Run
import RpsServe.Scheduler.Frame
import RpsServe.QueueManager.Merge
import RpsServe.KVCache.Oversize
import RpsServe.EncoderCache.References
import RpsServe.Scheduler.Conservation
import RpsServe.Scheduler.Pause
import RpsServe.Scheduler.RunningCap
import RpsServe.Scheduler.Inversion
import RpsServe.Scheduler.ScheduledSets
import RpsServe.Scheduler.Preemption
import RpsServe.Scheduler.Blocked
import RpsServe.Scheduler.Named
import RpsServe.Scheduler.ArrivalOrder
import RpsServe.Scheduler.Loading
import RpsServe.Scheduler.Adapters
import RpsServe.Scheduler.DeadlineOrder
import RpsServe.Scheduler.Budgets
import RpsServe.Scheduler.Victims
import RpsServe.Scheduler.Lookups
import RpsServe.Scheduler.EncoderCalls
import RpsServe.LoadGenerator.GeneratedEvent
import RpsServe.QueueManager.Rebuild
import RpsServe.SloExpirationManager.Overtaking
import RpsServe.SloExpirationManager.WellDefined
import RpsServe.P2p.Consumer
import RpsServe.P2p.StoreRun
import RpsServe.Llmperf.PreemptionGaps
import RpsServe.Llmperf.Attainment
import RpsServe.Frontend.SloLookup
import RpsServe.Scheduler.Traceless
import RpsServe.Scheduler.Departure
import RpsServe.Worker.BatchUpdate
import RpsServe.Worker.InputBatch
import RpsServe.Worker.BatchRows
import RpsServe.Worker.Condense
import RpsServe.Lib.Cycles
import RpsServe.Worker.Reorder
import RpsServe.Worker.ModelRunner
import RpsServe.Worker.UpdateStates
import RpsServe.Worker.LogitsProcessor
import RpsServe.Worker.RowState
import RpsServe.Worker.Sampler
import RpsServe.KVCache.SharedBlocks
import RpsServe.Scheduler.EncoderSupply
import RpsServe.Scheduler.Granting
import RpsServe.Worker.MultiModal
import RpsServe.Worker.EncoderReplica
import RpsServe.Worker.EncoderCoherence
import RpsServe.KVCache.BlockOwners
