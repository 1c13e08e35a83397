import GoGuard.Lib.Transition
import GoGuard.Lib.GoMap
import GoGuard.Lib.OrderedList
import GoGuard.Lib.Wire
import GoGuard.Dlq.Record
import GoGuard.Dlq.GroupCommit
import GoGuard.Dlq.Machine
import GoGuard.Dlq.MachineIndex
import GoGuard.Dlq.WakeTime
import GoGuard.Dlq.SelectLease
import GoGuard.Dlq.Queue
import GoGuard.Dlq.Store
import GoGuard.Dlq.Refine
import GoGuard.Dlq.StoreRefine
import GoGuard.Dlq.Restart
import GoGuard.Dlq.HeadOfLine
import GoGuard.Dlq.IndexInvariant
import GoGuard.Kafka.Consumer
import GoGuard.Kafka.Run
import GoGuard.Kafka.Effects
import GoGuard.Kafka.CommitPoint
import GoGuard.Kafka.Commit
import GoGuard.Kafka.Applied
import GoGuard.Kafka.Pool
import GoGuard.Kafka.Shutdown
import GoGuard.Kafka.Delivery
import GoGuard.Lib.History
import GoGuard.Pipeline.Checkpoint
import GoGuard.Pipeline.Run
import GoGuard.Pipeline.Progress
import GoGuard.Pipeline.Resume
import GoGuard.Dlq.Codec
import GoGuard.Dlq.Fencing
import GoGuard.Dlq.Frame
import GoGuard.Dlq.Recover
import GoGuard.Dlq.Repair
import GoGuard.Dlq.Written
import GoGuard.Dlq.Payloads
import GoGuard.Dlq.Reopen
import GoGuard.Dlq.Wal
import GoGuard.Dlq.WalFiles
import GoGuard.Dlq.WalInvariant
import GoGuard.Dlq.WalCompaction
import GoGuard.Dlq.WalReopen
import GoGuard.Dlq.CrashRecovery
import GoGuard.Dlq.ReadBack
import GoGuard.Pipeline.Epochs
import GoGuard.Pipeline.Permanent
import GoGuard.Pipeline.Keys
import GoGuard.Pipeline.RewindKeys
import GoGuard.Kafka.Accounting
import GoGuard.Kafka.Once
import GoGuard.Dlq.Refusal
import GoGuard.Dlq.Migration
import GoGuard.Dlq.Backup
import GoGuard.Dlq.Secure
import GoGuard.Dlq.Peppers
import GoGuard.Breaker.Circuit
import GoGuard.Dlq.RoundTrip
import GoGuard.Breaker.Canary
import GoGuard.Breaker.Prober
import GoGuard.Breaker.FreshProbes
import GoGuard.Dlq.Redriver
import GoGuard.Dlq.LeaseCalls
import GoGuard.Dlq.OneHandler
import GoGuard.Dlq.Charges
import GoGuard.Dlq.Budget
import GoGuard.Pipeline.Build
import GoGuard.Kafka.RedriveFor
import GoGuard.Dlq.ParkedPages
import GoGuard.Dlq.DueTimes
import GoGuard.Pipeline.RewindTo
import GoGuard.Pipeline.Template
import GoGuard.Secure.AesGcm
import GoGuard.Breaker.Refusing
import GoGuard.Dlq.Resync
import GoGuard.Breaker.WindowCounts
import GoGuard.Dlq.FileCache
import GoGuard.Breaker.Shard
import GoGuard.Breaker.Names
import GoGuard.Kafka.Service
import GoGuard.Obs.Dispatcher
