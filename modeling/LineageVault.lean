import LineageVault.Foundations.SingleWriter
import LineageVault.Storage.BatchRefinement
import LineageVault.Storage.HeadCommitment
import LineageVault.Storage.Recovery
import LineageVault.Wal.Crash
import LineageVault.Wal.Facade
import LineageVault.Storage.Serializable
import LineageVault.Storage.PartialMapping
import LineageVault.Storage.FieldClosure
import LineageVault.OpenLineage.OneByOne
import LineageVault.Storage.SharedFile
import LineageVault.Storage.Tampering
import LineageVault.Storage.Deployment
import LineageVault.Storage.SharedConnection
import LineageVault.OpenLineage.Retry
import LineageVault.OpenLineage.RunEvents
import LineageVault.OpenLineage.Impact
import LineageVault.OpenLineage.ColumnLineage
import LineageVault.OpenLineage.DatasetLineage
import LineageVault.Api.OpenLineageBatch
import LineageVault.Engine.Legacy
import LineageVault.Engine.Verdict
import LineageVault.TimeTravel.Past
import LineageVault.Ingestion.Pipeline
import LineageVault.Storage.OpenLedger
import LineageVault.Api.ServedOnce
import LineageVault.Storage.ReadBack
import LineageVault.Graph.GraphStore
import LineageVault.Storage.Migrations
import LineageVault.Storage.SharedJournal
import LineageVault.Benchmark.Harness
import LineageVault.Cli
import LineageVault.Ingestion.Stopping
import LineageVault.Api.Reads
import LineageVault.Storage.Interchange
