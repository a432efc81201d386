import Permanode.Foundations.Table
import Permanode.Foundations.Interleaving
import Permanode.Core.Schema
import Permanode.Foundations.Text
import Permanode.Core.Db
import Permanode.Core.LiveState
import Permanode.Node.Decode
import Permanode.Archive.Raw
import Permanode.Archive.Unique
import Permanode.Import.Body
import Permanode.Import.RoundTrip
import Permanode.Indexer.Transactions
import Permanode.Indexer.Poll
import Permanode.Import.Fill
import Permanode.Indexer.Headers
import Permanode.Ledger.Ledger
import Permanode.System
import Permanode.Ledger.Refinement
import Permanode.Ledger.Executions
import Permanode.Ledger.Founded
import Permanode.Ledger.HeaderRows
import Permanode.Ledger.HeaderBatch
import Permanode.Ledger.Canonical
import Permanode.Ledger.Gaps
import Permanode.Ledger.Bodies
import Permanode.Indexer.Frames
import Permanode.Ledger.Coverage
import Permanode.Ledger.CoverageRun
import Permanode.Indexer.Slices
import Permanode.Follow.Poll
import Permanode.Follow.Run
import Permanode.Emission.ClosedForms
import Permanode.Ledger.Readings
import Permanode.Foundations.Worlds
import Permanode.Import.Peers
import Permanode.Import.Filling
import Permanode.Import.InTurn
import Permanode.Import.Batch
import Permanode.Import.ReceiptRun
import Permanode.Import.AnySource
import Permanode.Ledger.Calls
import Permanode.Ledger.Brings
import Permanode.Ledger.CallsRun
import Permanode.Foundations.Joins
import Permanode.Foundations.Aggregates
import Permanode.Foundations.Tally
import Permanode.Queries.Balances
import Permanode.Queries.AddUp
import Permanode.Live.Outputs
import Permanode.Queries.Hours
import Permanode.Queries.Stats
import Permanode.Queries.Beside
import Permanode.Queries.Untouched
import Permanode.Emission.Shares
import Permanode.Emission.NextPayout
import Permanode.Foundations.Words
import Permanode.Import.Sums
import Permanode.Queries.Unspent
import Permanode.Queries.Orphaned
import Permanode.Live.Pruning
import Permanode.Foundations.History
import Permanode.Live.Zeroing
import Permanode.Live.Segment
import Permanode.Node.CreationIds
import Permanode.Import.Agreement
import Permanode.Import.Accepted
import Permanode.Import.Journal
import Permanode.Import.Replay
import Permanode.Economics.Pressure
import Permanode.Economics.Expansions
import Permanode.Economics.Samples
import Permanode.Economics.BurnHistory
import Permanode.Economics.Estimates
import Permanode.Follow.Arrivals
import Permanode.Ledger.HeaderRun
import Permanode.Foundations.Ranking
import Permanode.Ledger.HeaderStatus
import Permanode.Queries.Miners
import Permanode.Export.Csv
import Permanode.Export.Joins
import Permanode.Foundations.Paging
import Permanode.Queries.Pages
import Permanode.Ledger.Filing
import Permanode.Ledger.References
import Permanode.Queries.History
import Permanode.Ledger.Finality
import Permanode.Ledger.CanonicalRun
import Permanode.Queries.FinalPages
import Permanode.Core.Catalog
import Permanode.Foundations.Script
import Permanode.Core.Migrate
import Permanode.Core.Opening
