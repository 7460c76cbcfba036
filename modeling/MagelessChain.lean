import MagelessChain.Lib.Image
import MagelessChain.Lib.OrderedStore
import MagelessChain.Lib.Machine
import MagelessChain.Lib.Behaviours
import MagelessChain.Lib.Removal
import MagelessChain.Lib.FloatOrder
import MagelessChain.Lib.BestScan
import MagelessChain.Lib.Grouped
import MagelessChain.Lib.CopyOnWrite
import MagelessChain.Lib.Rebuild
import MagelessChain.Lib.SharedLocks
import MagelessChain.Lib.Regions
import MagelessChain.Chain.Design
import MagelessChain.Chain.Registry
import MagelessChain.Chain.StateOverrideCopy
import MagelessChain.Chain.Slots
import MagelessChain.Chain.TestChainDesign
import MagelessChain.Storage.EpochFile
import MagelessChain.Storage.EpochLayout
import MagelessChain.Storage.EpochAppend
import MagelessChain.Storage.CustomizableFileCache
import MagelessChain.Storage.BlockTimestampTracker
import MagelessChain.Storage.Catalog
import MagelessChain.Storage.CatalogToc
import MagelessChain.Storage.CatalogFiles
import MagelessChain.Storage.CatalogQuery
import MagelessChain.Storage.CatalogOrder
import MagelessChain.Storage.Cursors
import MagelessChain.Storage.CatalogEntry
import MagelessChain.Storage.CatalogPayload
import MagelessChain.Storage.CatalogAccess
import MagelessChain.Storage.CatalogAccessEnds
import MagelessChain.Storage.CatalogAtomic
import MagelessChain.Storage.CatalogHistory
import MagelessChain.Storage.CatalogRestarts
import MagelessChain.Storage.CatalogSizes
import MagelessChain.Storage.CatalogCapacity
import MagelessChain.Backend.State
import MagelessChain.Backend.AddBlock
import MagelessChain.Backend.Journal
import MagelessChain.Backend.Phases
import MagelessChain.Backend.Effects
import MagelessChain.Backend.RoundTrip
import MagelessChain.Backend.TimeWindow
import MagelessChain.Backend.Overrides
import MagelessChain.Backend.Pairing
import MagelessChain.Backend.Interrupt
import MagelessChain.Backend.Atomicity
import MagelessChain.Backend.Durability
import MagelessChain.Backend.Restarts
import MagelessChain.Backend.NodeEnds
import MagelessChain.Backend.CommittedReads
import MagelessChain.Backend.Schedule
import MagelessChain.Backend.Readers
import MagelessChain.Backend.WrittenBlocks
import MagelessChain.Backend.SharedCursor
import MagelessChain.Backend.Replay
import MagelessChain.Backend.LatestSum
import MagelessChain.Backend.Cadence
import MagelessChain.Frontend.MEVBuilder
import MagelessChain.Frontend.BlockchainFrontend
import MagelessChain.Frontend.Conservation
import MagelessChain.Frontend.Speculative
import MagelessChain.Frontend.Selection
import MagelessChain.Frontend.Greedy
import MagelessChain.Frontend.TransactionById
import MagelessChain.Frontend.WindowQuery
import MagelessChain.Frontend.MempoolFile
import MagelessChain.Frontend.MempoolRecords
import MagelessChain.Frontend.Sessions
import MagelessChain.Frontend.WholeNode
import MagelessChain.Frontend.EndToEnd
