import Etherfold.Ledger.Basic
import Etherfold.Engine.Stream
import Etherfold.Engine.Derive
import Etherfold.Engine.Receive
import Etherfold.Engine.Delivery
import Etherfold.Ledger.Settle
import Etherfold.Server.Emissions
import Etherfold.Server.Alive
import Etherfold.Server.Canonical
import Etherfold.Chain.View
import Etherfold.Ledger.Expand
import Etherfold.Chain.Run
import Etherfold.Chain.Linked
import Etherfold.Chain.Stored
import Etherfold.Engine.Replay
import Etherfold.Engine.Window
import Etherfold.Ledger.Runs
import Etherfold.Engine.Mirror
import Etherfold.Engine.Merged
import Etherfold.Engine.Reappend
import Etherfold.Engine.Batches
import Etherfold.Generation.Resume
import Etherfold.Generation.Rebuild
import Etherfold.Generation.Follow
import Etherfold.Ledger.Page
import Etherfold.Server.Standing
import Etherfold.Server.Consumer
import Etherfold.Fetch.RangeLogFetcher
import Etherfold.Fetch.SubRange
import Etherfold.Fetch.CompleteRange
import Etherfold.Fetch.CatchUp
import Etherfold.Fetch.Planner
import Etherfold.Fetch.Union
import Etherfold.Fetch.EventRanges
import Etherfold.Fetch.FilterRules
import Etherfold.Fetch.FilterPlan
import Etherfold.Fetch.Decode
import Etherfold.Ledger.Versions
import Etherfold.Ledger.Above
import Etherfold.Ledger.Transaction
import Etherfold.Store.Retention
import Etherfold.Store.Memory
import Etherfold.Store.Pruning
import Etherfold.Store.Image
import Etherfold.Ledger.Lex
import Etherfold.Ledger.Contiguous
import Etherfold.Ledger.Multimap
import Etherfold.Ledger.Overlay
import Etherfold.Store.Entity
import Etherfold.Store.Reads
import Etherfold.Store.History
import Etherfold.Store.Snapshots
import Etherfold.Store.AsOf
import Etherfold.Store.Listed
import Etherfold.Store.Staging
import Etherfold.Server.Writer
import Etherfold.Store.Replay
import Etherfold.Store.Patch
import Etherfold.Store.PatchReads
import Etherfold.Store.PatchPruning
import Etherfold.Generation.Registry
import Etherfold.Generation.Slots
import Etherfold.Generation.Calls
import Etherfold.Generation.Cleanup
import Etherfold.Generation.Pause
import Etherfold.Generation.Promotion
import Etherfold.Snapshot.Document
import Etherfold.Snapshot.Handle
import Etherfold.Snapshot.Install
import Etherfold.Stream.Identity
import Etherfold.Stream.SourceHashes
import Etherfold.Ledger.Distinct
import Etherfold.Stream.CanonicalForm
import Etherfold.Stream.StreamConfig
import Etherfold.Stream.Invalidation
import Etherfold.Stream.Segments
import Etherfold.Stream.Tabs
import Etherfold.Stream.SeedInstall
import Etherfold.Store.WriterCalls
import Etherfold.Sqlite.Statements
import Etherfold.Sqlite.Store
import Etherfold.Sqlite.Tables
import Etherfold.Sqlite.Calls
import Etherfold.Sqlite.Refines
import Etherfold.Sqlite.Histories
import Etherfold.Sqlite.Reads
import Etherfold.Sqlite.Runs
import Etherfold.Ledger.Tenure
import Etherfold.Sqlite.Handles
import Etherfold.Query.OneBranch
import Etherfold.Query.Operation
import Etherfold.Sqlite.OneWriter
import Etherfold.Ledger.Code
import Etherfold.Indexed.Text
import Etherfold.Ledger.ObjectStore
import Etherfold.Indexed.Keys
import Etherfold.Indexed.Store
import Etherfold.Ledger.Overwrite
import Etherfold.Ledger.Lacking
import Etherfold.Indexed.Rows
import Etherfold.Indexed.Refines
import Etherfold.Indexed.Reads
import Etherfold.Indexed.Runs
import Etherfold.Indexed.FullHistory
import Etherfold.Sqlite.FullHistory
import Etherfold.Ledger.Along
import Etherfold.Ledger.Eldest
import Etherfold.Signal.StateMoved
import Etherfold.Signal.Readers
import Etherfold.Generation.Indexer
import Etherfold.Generation.Answering
import Etherfold.Generation.Fetching
import Etherfold.Accessor.Plan
import Etherfold.Accessor.Indexed
import Etherfold.Accessor.Sql
import Etherfold.Accessor.Racing
import Etherfold.Ledger.Keyed
import Etherfold.Server.GenerationTables
import Etherfold.Server.Commits
import Etherfold.Ledger.Cancel
import Etherfold.Chain.Survivors
import Etherfold.Server.StreamSeed
import Etherfold.Server.SeedOfChain
import Etherfold.Signal.Action
import Etherfold.Signal.ActionRuns
import Etherfold.Election.Candidacy
import Etherfold.Election.Place
import Etherfold.Election.Tabs
import Etherfold.Host.Driver
import Etherfold.Host.Stopping
import Etherfold.Store.Declaration
import Etherfold.Store.FlatKey
import Etherfold.Store.SemanticTypes
import Etherfold.Store.IdOrder
import Etherfold.Ledger.Word
import Etherfold.Server.Framing
import Etherfold.Server.FeedCursor
import Etherfold.Engine.TaggedBigInt
import Etherfold.Engine.TxInclusion
import Etherfold.Generation.Published
import Etherfold.Stream.OneDigest
import Etherfold.Generation.Bounded
import Etherfold.Ledger.Pairs
import Etherfold.Ledger.Redelivery
import Etherfold.Engine.Redelivery
import Etherfold.Engine.Wire
import Etherfold.Server.RawFeed
import Etherfold.Query.Batches
import Etherfold.Host.PortPushes
