import Keyspace.Assoc
import Keyspace.Bucket
import Keyspace.BucketSession
import Keyspace.BucketSystem
import Keyspace.Bytes
import Keyspace.Clock
import Keyspace.Command
import Keyspace.Failure
import Keyspace.Flush
import Keyspace.Guards
import Keyspace.KeyLocks
import Keyspace.KeyOrder
import Keyspace.Log
import Keyspace.Main
import Keyspace.Node
import Keyspace.Numeral
import Keyspace.Partition
import Keyspace.Predicate
import Keyspace.Proofs.AccessHistory
import Keyspace.Proofs.BucketCoherence
import Keyspace.Proofs.BucketDictionary
import Keyspace.Proofs.CacheAlone
import Keyspace.Proofs.CacheFlight
import Keyspace.Proofs.CacheFreshness
import Keyspace.Proofs.CacheHistory
import Keyspace.Proofs.CacheInvalidation
import Keyspace.Proofs.CacheLocks
import Keyspace.Proofs.CacheOrigins
import Keyspace.Proofs.CacheSteps
import Keyspace.Proofs.CanonicalNumeral
import Keyspace.Proofs.CommandWords
import Keyspace.Proofs.ConditionMeaning
import Keyspace.Proofs.Configuration
import Keyspace.Proofs.CounterSum
import Keyspace.Proofs.CounterText
import Keyspace.Proofs.Deadlines
import Keyspace.Proofs.Dictionary
import Keyspace.Proofs.FlushExact
import Keyspace.Proofs.FlushRun
import Keyspace.Proofs.GuardHoldings
import Keyspace.Proofs.GuardMemory
import Keyspace.Proofs.GuardOwnership
import Keyspace.Proofs.GuardSteps
import Keyspace.Proofs.HandleProtocol
import Keyspace.Proofs.IntegerReaders
import Keyspace.Proofs.KeyEnumeration
import Keyspace.Proofs.KeyOrderLaws
import Keyspace.Proofs.KeyOrders
import Keyspace.Proofs.LockOwnership
import Keyspace.Proofs.LockReclaim
import Keyspace.Proofs.MapAccess
import Keyspace.Proofs.NodeContents
import Keyspace.Proofs.NodeRange
import Keyspace.Proofs.NodeReplies
import Keyspace.Proofs.NumeralGrammar
import Keyspace.Proofs.PartitionHash
import Keyspace.Proofs.PoolShutdown
import Keyspace.Proofs.PoolSteps
import Keyspace.Proofs.PoolTasks
import Keyspace.Proofs.RangeAlone
import Keyspace.Proofs.RangeAnswers
import Keyspace.Proofs.RangeSteps
import Keyspace.Proofs.Routing
import Keyspace.Proofs.RowPattern
import Keyspace.Proofs.Runs
import Keyspace.Proofs.SignedArithmetic
import Keyspace.Proofs.SnapshotRange
import Keyspace.Proofs.StoreContents
import Keyspace.Proofs.StoreRegistry
import Keyspace.Proofs.TaskLife
import Keyspace.Proofs.TaskOutcome
import Keyspace.Proofs.TaskProtocol
import Keyspace.Proofs.TaskToken
import Keyspace.Proofs.UpdateAlone
import Keyspace.Proofs.UpdateChronicle
import Keyspace.Proofs.UpdateCourse
import Keyspace.Proofs.UpdateLinear
import Keyspace.Proofs.UpdateOwnership
import Keyspace.Proofs.UpdateProgress
import Keyspace.Proofs.UpdateRemoval
import Keyspace.Proofs.UpdateSerial
import Keyspace.Proofs.UpdateSteps
import Keyspace.Proofs.UpdateWrites
import Keyspace.Regex.ByteSet
import Keyspace.Regex.Item
import Keyspace.Regex.Parse
import Keyspace.Regex.Pattern
import Keyspace.Regex.Search
import Keyspace.Regex.Token
import Keyspace.ShardedMap
import Keyspace.Snapshot
import Keyspace.SnapshotCache
import Keyspace.Store
import Keyspace.StoreConfig
import Keyspace.Task
import Keyspace.Update
import Keyspace.Value
import Keyspace.WorkerPool
