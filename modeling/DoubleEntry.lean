import DoubleEntry.L4Store.Memory
import DoubleEntry.L3Ledger.PeriodLifecycle
import DoubleEntry.L3Ledger.PeriodRun
import DoubleEntry.L5Concurrency.PeriodRace
import DoubleEntry.L5Concurrency.Clients
import DoubleEntry.L5Concurrency.ClientLog
import DoubleEntry.L5Concurrency.SealSnapshot
import DoubleEntry.L5Concurrency.SealedBooks
import DoubleEntry.Core.MerkleConsistency
import DoubleEntry.L2Merkle.Proofs
import DoubleEntry.L3Ledger.Rollback
import DoubleEntry.L3Ledger.BatchRun
import DoubleEntry.L3Ledger.VerifyBalanced
import DoubleEntry.L3Ledger.Commitments
import DoubleEntry.Core.Codec
import DoubleEntry.L1Values.Encoding
import DoubleEntry.L3Ledger.EntryEncoding
import DoubleEntry.L3Ledger.Typestate
import DoubleEntry.L4Store.SqlStore
import DoubleEntry.L4Store.SqlReads
import DoubleEntry.L3Ledger.SealChain
import DoubleEntry.L3Ledger.ContentHash
import DoubleEntry.L3Ledger.Disclosure
import DoubleEntry.L3Ledger.Indexes
import DoubleEntry.L3Ledger.Representation
import DoubleEntry.L3Ledger.Corrections
import DoubleEntry.L3Ledger.BalanceReads
import DoubleEntry.L3Ledger.ClearingRun
import DoubleEntry.L4Store.Retries
import DoubleEntry.L5Concurrency.StaleDrafts
import DoubleEntry.L3Ledger.OpenItems
import DoubleEntry.L3Ledger.Limits
import DoubleEntry.L4Store.SqlLog
import DoubleEntry.Core.Text
import DoubleEntry.L4Store.ColdTier
import DoubleEntry.L4Store.ColdTierRun
import DoubleEntry.L5Concurrency.Compactions
import DoubleEntry.Core.Slots
import DoubleEntry.L5Concurrency.Postgres
import DoubleEntry.L5Concurrency.PostgresRows
import DoubleEntry.L5Concurrency.PostgresLimits
import DoubleEntry.L5Concurrency.PostgresLog
import DoubleEntry.L5Concurrency.PostgresPasses
import DoubleEntry.L5Concurrency.PostgresOrder
import DoubleEntry.Core.Scan
import DoubleEntry.L3Ledger.Registry
import DoubleEntry.L3Ledger.Leaves
import DoubleEntry.L3Ledger.Sealing
import DoubleEntry.L4Store.AccountTable
import DoubleEntry.L5Concurrency.DefineRace
import DoubleEntry.L5Concurrency.LockCycles
import DoubleEntry.Core.Select
import DoubleEntry.L4Store.Columns
import DoubleEntry.L4Store.SqliteRows
import DoubleEntry.L4Store.SqliteAppend
import DoubleEntry.Core.LargestRemainder
import DoubleEntry.L1Values.Allocation
import DoubleEntry.L1Values.AmountText
import DoubleEntry.L3Ledger.Checkpoints
import DoubleEntry.L3Ledger.Closing
import DoubleEntry.L3Ledger.Restoring
import DoubleEntry.L4Store.PathText
import DoubleEntry.L3Ledger.PeriodScan
import DoubleEntry.L4Store.Handles
import DoubleEntry.L3Ledger.SealingEntries
import DoubleEntry.Core.Paging
import DoubleEntry.L4Store.ClearingTables
import DoubleEntry.L4Store.Paging
import DoubleEntry.L3Ledger.ClearingReplay
import DoubleEntry.L4Store.ClearingCalls
import DoubleEntry.L5Concurrency.SqlClearings
import DoubleEntry.Core.Json
import DoubleEntry.Core.Wire
import DoubleEntry.L1Values.Julian
import DoubleEntry.L4Store.ArchiveText
import DoubleEntry.L4Store.EntryWire
import DoubleEntry.L3Ledger.Audit
import DoubleEntry.L3Ledger.ArchivedHeads
import DoubleEntry.L3Ledger.Assertions
import DoubleEntry.L3Ledger.FullDisclosure
import DoubleEntry.L3Ledger.Standing
import DoubleEntry.L5Concurrency.StoredChain
import DoubleEntry.L5Concurrency.Followers
import DoubleEntry.L5Concurrency.PostgresCorrections
import DoubleEntry.L4Store.AppendAlike
import DoubleEntry.L4Store.Conformance
import DoubleEntry.L4Store.AuditWire
import DoubleEntry.L4Store.Readers
import DoubleEntry.L4Store.CheckpointTable
import DoubleEntry.L5Concurrency.PostgresTriggers
