import ChainIngest.Keccak
import ChainIngest.Text.Utf8
import ChainIngest.Block
import ChainIngest.Capability.Basic
import ChainIngest.Duration
import ChainIngest.Error
import ChainIngest.Rows
import ChainIngest.Trace.Basic
import ChainIngest.Trace.Extract
import ChainIngest.Abi
import ChainIngest.Capability.Cache
import ChainIngest.Trace.Revert
import ChainIngest.Balance.Ledger
import ChainIngest.Token.Event
import ChainIngest.Token.Interpret
import ChainIngest.Record.Codec
import ChainIngest.Store.Table
import ChainIngest.Json.Basic
import ChainIngest.Json.Parser
import ChainIngest.Json.Printer
import ChainIngest.Importer.Config
import ChainIngest.Metrics
import ChainIngest.Rpc.Api
import ChainIngest.Calendar
import ChainIngest.Importer.Program
import ChainIngest.Store.Basic
import ChainIngest.Store.Write
import ChainIngest.Importer.Entry
import ChainIngest.Importer.Import
import ChainIngest.Importer.Run
import ChainIngest.Scripted.Blocks
import ChainIngest.Scripted.Writer
import ChainIngest.Json.Encode
import ChainIngest.Scripted.Cast
import ChainIngest.Scripted.Rows
import ChainIngest.Rpc.Block
import ChainIngest.Rpc.Receipt
import ChainIngest.Rpc.Trace
import ChainIngest.Rpc.Client
import ChainIngest.Scripted.Endpoint
import ChainIngest.Url.Basic
import ChainIngest.Url.Parser
import ChainIngest.Postgres.Column
import ChainIngest.Postgres.Insert
import ChainIngest.Postgres.Store
import ChainIngest.Crc32
import ChainIngest.Sha384
import ChainIngest.Postgres.Migration
import ChainIngest.Postgres.Purge
import ChainIngest.Postgres.Config
import ChainIngest.Scripted.Server
import ChainIngest.Json.Report
import ChainIngest.Scripted.Inquiry
import ChainIngest.Scripted.Settings
import ChainIngest.Command.Arguments
import ChainIngest.Log.Filter
import ChainIngest.Command.Fault
import ChainIngest.Command.Process
import ChainIngest.Command.Report
import ChainIngest.Scripted.Terminal
import ChainIngest.Command.Usage
import ChainIngest.Main
import ChainIngest.Proofs.Tables
import ChainIngest.Proofs.Conservation
import ChainIngest.Proofs.Courses
import ChainIngest.Proofs.World
import ChainIngest.Proofs.StepEffect
import ChainIngest.Proofs.Atomicity
import ChainIngest.Proofs.CanonicalChain
import ChainIngest.Proofs.StoredDeltas
import ChainIngest.Proofs.Convergence
import ChainIngest.Proofs.CallOrder
import ChainIngest.Proofs.Issuance
import ChainIngest.Proofs.Scenes
import ChainIngest.Proofs.TransactionRows
import ChainIngest.Proofs.Triples
import ChainIngest.Proofs.Classification
import ChainIngest.Proofs.FreshImport
import ChainIngest.Proofs.Recommit
import ChainIngest.Proofs.RecordLayout
import ChainIngest.Proofs.CommittedRows
import ChainIngest.Proofs.FailedTransactions
import ChainIngest.Proofs.ActiveEntries
import ChainIngest.Proofs.WellFormedTraces
import ChainIngest.Proofs.LogRows
import ChainIngest.Proofs.PrefixCode
import ChainIngest.Proofs.Movements
import ChainIngest.Proofs.Detection
import ChainIngest.Proofs.TraceTrees
import ChainIngest.Proofs.FlatTraces
import ChainIngest.Proofs.Transcripts
import ChainIngest.Proofs.Resolution
import ChainIngest.Proofs.WriterStates
import ChainIngest.Proofs.AppendOnly
import ChainIngest.Proofs.KnownCapabilities
import ChainIngest.Proofs.DestructionFlags
import ChainIngest.Proofs.LostHeads
import ChainIngest.Proofs.CommonAncestors
import ChainIngest.Proofs.ChainGuard
import ChainIngest.Proofs.NestedRetries
import ChainIngest.Proofs.AppendedCode
import ChainIngest.Proofs.ReorgEffect
import ChainIngest.Proofs.RecentDetections
import ChainIngest.Proofs.Conversations
import ChainIngest.Proofs.AttemptLoop
import ChainIngest.Proofs.ExactRewards
import ChainIngest.Proofs.LostMovements
import ChainIngest.Proofs.EncodedText
import ChainIngest.Proofs.DataFields
import ChainIngest.Proofs.EventShapes
import ChainIngest.Proofs.EncodedEvents
import ChainIngest.Proofs.BoundedReads
import ChainIngest.Proofs.PrunedSubtrees
import ChainIngest.Proofs.TraceAddresses
import ChainIngest.Proofs.ReceiptOrder
import ChainIngest.Proofs.AccountRows
import ChainIngest.Proofs.Dispatchers
import ChainIngest.Proofs.BlockTimes
import ChainIngest.Proofs.TreeIndices
import ChainIngest.Proofs.MaskedPasswords
import ChainIngest.Proofs.SignedDecimals
import ChainIngest.Proofs.RevertReasons
import ChainIngest.Proofs.Eras
import ChainIngest.Proofs.RetryDelays
