import AuditChain.PyText
import AuditChain.PyValue
import AuditChain.Anchors
import AuditChain.CheckpointRoundTrip
import AuditChain.Stored
import AuditChain.SqliteWrites
import AuditChain.StoredLogs
import AuditChain.Unlocked
import AuditChain.TornWrites
import AuditChain.Jsonl
import AuditChain.FailedWrites
import AuditChain.LockCrashes
import AuditChain.Coroutines
import AuditChain.Handler
import AuditChain.CommandLine
import AuditChain.ProofDecoding
import AuditChain.ProofLength
import AuditChain.UnreadableLines
import AuditChain.Verdicts
import AuditChain.Stripping
import AuditChain.BatchAppend
import AuditChain.ColumnTables
import AuditChain.Migration
import AuditChain.VerifyCommand
import AuditChain.AnchoredCommands
import AuditChain.LoggedRecords
import AuditChain.Postgres
import AuditChain.StoredCommands
