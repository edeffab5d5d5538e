import RateLimit.GoRuntime
import RateLimit.Runs
import RateLimit.SegmentRing
import RateLimit.TokenBucket
import RateLimit.Policy
import RateLimit.PersistedState
import RateLimit.StateSpec
import RateLimit.StateChecks
import RateLimit.StateClosure
import RateLimit.TokenBound
import RateLimit.TokenTimes
import RateLimit.Reference
import RateLimit.TokenRefinement
import RateLimit.WindowAccounting
import RateLimit.SlidingRelease
import RateLimit.ResetRange
import RateLimit.StateAging
import RateLimit.Transaction
import RateLimit.StateWire
import RateLimit.PostgresStore
import RateLimit.StoreSpec
import RateLimit.RowExpiry
import RateLimit.LegacyState
import RateLimit.ReleasedStore
import RateLimit.ReleasedExpiry
import RateLimit.LeaseTable
import RateLimit.LeaseState
import RateLimit.LeaseStore
import RateLimit.LeaseSurvival
import RateLimit.Rejections
import RateLimit.Adoption
import RateLimit.Decimal
import RateLimit.JsonText
import RateLimit.AtomicStore
import RateLimit.Conversation
import RateLimit.TransactionRules
import RateLimit.Outcomes
import RateLimit.StrictService
import RateLimit.KnownOutcomes
import RateLimit.MemoryStore
import RateLimit.MemorySpec
import RateLimit.MemoryKeys
import RateLimit.MemoryLeases
import RateLimit.MemoryContract
import RateLimit.MemoryRefill
import RateLimit.MemoryEviction
import RateLimit.MemoryIsolation
import RateLimit.MemoryOverflow
import RateLimit.MemoryReference
import RateLimit.WireRoundTrip
import RateLimit.AtomicReceipts
import RateLimit.BytePattern
import RateLimit.BackendNames
import RateLimit.ClientAddress
import RateLimit.Identities
import RateLimit.AtomicIntents
import RateLimit.StrictBatch
import RateLimit.ReleasedAgreement
import RateLimit.MemoryFailures
import RateLimit.LeaseOwnership
import RateLimit.ValkeyScript
import RateLimit.ValkeyMirror
import RateLimit.ValkeyAlgorithms
import RateLimit.ValkeyAgreement
import RateLimit.ValkeyExpiry
import RateLimit.Interleaving
import RateLimit.LockOrder
import RateLimit.AtomicOnce
import RateLimit.StrictTransactions
